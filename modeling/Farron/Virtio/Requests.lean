import Farron.Kernel.Guarded
import Farron.Virtio.Disk
import Mathlib.Algebra.Order.BigOperators.Group.Finset
import Mathlib.Data.Finset.Card

/-! What is kept of the disk's requests.

A thread has its descriptors while it is at some stage of a request (`Stage`), and what the
stage says of the disk (`Fits`) is kept by all other threads. There are never more than two
requests that `virtio_disk_intr` has not seen (`Kept.few`), so that neither ring wraps
around onto an entry that is still needed. -/
namespace Farron.Virtio
open Resumption
variable {ι β : Type}

/-! ### Stages -/

/-- How far a thread is with a request, or with an interrupt. -/
inductive Stage (β : Type)
  | taken (l : List Nat)
  | formatted (i j k : Nat)
  | recorded (i j k : Nat) (b : β)
  | flying (n i j k : Nat) (b : β)
  | landed (n i j k : Nat) (b : β)
  | freeing (l : List Nat)
  /-- The first of these has just been freed. -/
  | freed (i : Nat) (l : List Nat)
  | looking
  | found (b : β)
  | bumping

namespace Stage

/-- With nothing. -/
abbrev idle : Stage β := taken []

/-- The descriptors that the thread has. -/
def descs : Stage β → List Nat
  | taken l | freeing l | freed _ l => l
  | formatted i j k | recorded i j k _ | flying _ i j k _ | landed _ i j k _ => [i, j, k]
  | looking | found _ | bumping => []

/-- The head of the chain and the buffer, while `disk.info` has them. -/
def request : Stage β → Option (Nat × β)
  | recorded i _ _ b | flying _ i _ _ b | landed _ i _ _ b => some (i, b)
  | _ => none

end Stage

structure Hold (β : Type) where
  held : β → Bool
  stage : Stage β

/-- What a thread may have without the lock. -/
def Calm (x : Hold β) : Prop := x.stage = .idle ∨ ∃ n i j k b, x.stage = .flying n i j k b

namespace Disk
variable (d : Disk ι β)

/-- The completions that `virtio_disk_intr` has seen. -/
def processed : List Nat := d.dones.take d.cleared.length

/-- The chains that the device has taken. -/
def took : Nat := d.dones.length + d.pending.length

/-- These are the descriptors of a chain. -/
def Linked : List Nat → Prop
  | [] => True
  | [k] => (d.desc k).flags &&& flagNext = 0
  | i :: j :: l => (d.desc i).flags &&& flagNext ≠ 0 ∧ (d.desc i).next = j ∧ Linked (j :: l)

variable {d}

theorem Linked.congr {d' : Disk ι β} : ∀ {l : List Nat}, d.Linked l →
    (∀ i ∈ l, (d'.desc i).flags = (d.desc i).flags ∧ (d'.desc i).next = (d.desc i).next) → d'.Linked l
  | [], _, _ => trivial
  | [k], h, hd => by
    show (d'.desc k).flags &&& flagNext = 0
    rw [(hd k (by simp)).1]
    exact h
  | i :: j :: l, h, hd => by
    obtain ⟨hf, hn⟩ := hd i (by simp)
    refine ⟨?_, ?_, h.2.2.congr fun x hx => hd x (List.mem_cons_of_mem i hx)⟩
    · rw [hf]
      exact h.1
    · rw [hn]
      exact h.2.1

theorem Linked.chain {i j k : Nat} (h : d.Linked [i, j, k]) : d.chain i = [i, j, k] := by
  obtain ⟨hi, rfl, hj, rfl, hk⟩ := h
  show i :: (if _ then _ :: (if _ then _ :: (if _ then _ else _) else _) else _) = _
  rw [if_pos hi, if_pos hj, if_neg (by rw [hk]; simp)]

end Disk

/-- The three descriptors of a request, ready for the device. -/
structure Formatted (d : Disk ι β) (i j k : Nat) : Prop where
  linked : d.Linked [i, j, k]
  addr : (d.desc k).addr = .status i

/-- A request that the device has been given, not yet given back. -/
structure Flight (d : Disk ι β) (n i j k : Nat) (b : β) : Prop extends Formatted d i j k where
  info : d.info i = ⟨some b, 0⟩
  sub : d.subs[n]? = some (i, b)
  busy : d.busy b = true ↔ n ∉ d.processed

/-- What the stage of a thread says. -/
def Fits (d : Disk ι β) (x : Hold β) : Prop :=
  match x.stage with
  | .formatted i j k => Formatted d i j k ∧ (d.info i).status = 0
  | .recorded i j k b => Formatted d i j k ∧ d.info i = ⟨some b, 0⟩ ∧ d.avail (d.availIdx % num) = i ∧
      d.busy b = true ∧ x.held b = true
  | .flying n i j k b => Flight d n i j k b ∧ x.held b = true
  | .landed n i j k b => Flight d n i j k b ∧ n ∈ d.processed ∧ x.held b = true
  | .freeing l => d.Linked l ∧ l ≠ []
  | .freed i l => d.Linked (i :: l)
  | .looking => d.cleared.length < d.dones.length
  | .found b => ∃ n h : Nat, d.dones[d.cleared.length]? = some n ∧ d.subs[n]? = some (h, b)
  | .bumping => 0 < d.cleared.length ∧ d.usedIdx = (d.cleared.length - 1) % num
  | .taken _ => True

/-- The rings, and what the device has done. -/
structure Rings (d : Disk ι β) : Prop where
  availIdx : d.availIdx = uint16 d.subs.length
  seen : d.seen = uint16 d.took
  took : d.took ≤ d.subs.length
  numbers : (d.dones ++ d.pending.map Prod.fst).Perm (List.range d.took)
  heads : ∀ x ∈ d.pending, ∃ b, d.subs[x.1]? = some (x.2, b)
  avail : ∀ (n h : Nat) (b : β), d.took ≤ n → d.subs[n]? = some (h, b) → d.avail (n % num) = h
  usedId : d.usedId = uint16 d.dones.length
  elems : ∀ (m n h : Nat) (b : β), d.cleared.length ≤ m → d.dones[m]? = some n → d.subs[n]? = some (h, b) → d.elems (m % num) = h
  seenDone : d.cleared.length ≤ d.dones.length
  cleared : ∀ (m : Nat) (b : β), d.cleared[m]? = some b → ∃ n h : Nat, d.dones[m]? = some n ∧ d.subs[n]? = some (h, b)

/-- The invariant. -/
structure Kept (d : Disk ι β) (own : ι → Hold β) : Prop where
  held : ∀ p b, (own p).held b = true → d.lock b = some p
  range : ∀ p x, x ∈ (own p).stage.descs → x < num ∧ d.free x = false
  nodup : ∀ p, (own p).stage.descs.Nodup
  apart : ∀ p q x, x ∈ (own p).stage.descs → x ∈ (own q).stage.descs → p = q
  taken : ∀ x, x < num → d.free x = false → ∃ p, x ∈ (own p).stage.descs
  fits : ∀ p, Fits d (own p)
  info : ∀ h b, (d.info h).b = some b → ∃ p, (own p).stage.request = some (h, b)
  flying : ∀ n, n < d.subs.length → n ∉ d.processed → ∃ p i j k b, (own p).stage = .flying n i j k b
  counted : (∀ p, (own p).stage ≠ .bumping) → d.usedIdx = d.cleared.length % num
  rings : Rings d

namespace Rings
variable {d : Disk ι β}

theorem nodup (h : Rings d) : d.dones.Nodup :=
  (List.nodup_append.mp ((h.numbers.nodup_iff).mpr List.nodup_range)).1

theorem done_lt (h : Rings d) {n : Nat} (hn : n ∈ d.dones) : n < d.took :=
  List.mem_range.mp (h.numbers.subset (List.mem_append_left _ hn))

theorem processed_length (h : Rings d) : d.processed.length = d.cleared.length := by
  rw [Disk.processed, List.length_take, Nat.min_eq_left h.seenDone]

/-- A completion that is still to be seen. -/
theorem not_processed (h : Rings d) {m n : Nat} (hm : d.cleared.length ≤ m) (hn : d.dones[m]? = some n) :
    n ∉ d.processed := by
  intro hp
  obtain ⟨m', hlt, hm'⟩ := List.mem_take_iff_getElem.mp hp
  obtain ⟨hmlt, hmn⟩ := List.getElem?_eq_some_iff.mp hn
  have : m' = m := h.nodup.getElem_inj_iff.mp (hm'.trans hmn.symm)
  omega

theorem pending_not_done (h : Rings d) {x : Nat × Nat} (hx : x ∈ d.pending) : x.1 ∉ d.dones := by
  have hnodup := (h.numbers.nodup_iff).mpr List.nodup_range
  intro hd
  exact (List.nodup_append.mp hnodup).2.2 _ hd _ (List.mem_map_of_mem hx) rfl

end Rings

namespace Kept
variable {d : Disk ι β} {own : ι → Hold β}

/-- At most two requests have not been seen by `virtio_disk_intr`: each has three descriptors. -/
theorem few (h : Kept d own) : d.subs.length ≤ d.cleared.length + 2 := by
  obtain ⟨U, hU⟩ : ∃ U, U = Finset.range d.subs.length \ d.processed.toFinset := ⟨_, rfl⟩
  have hflying : ∀ n ∈ U, ∃ l p, (own p).stage.descs = l ∧ ∃ i j k b, (own p).stage = .flying n i j k b := by
    intro n hn
    rw [hU, Finset.mem_sdiff, Finset.mem_range, List.mem_toFinset] at hn
    obtain ⟨p, hp⟩ := h.flying n hn.1 hn.2
    exact ⟨_, p, rfl, hp⟩
  choose! l hl using hflying
  have hcard : ∀ n ∈ U, (l n).toFinset.card = 3 := by
    intro n hn
    obtain ⟨p, hp, i, j, k, b, hs⟩ := hl n hn
    rw [← hp, List.toFinset_card_of_nodup (h.nodup p), hs]
    rfl
  have hdisj : ∀ n ∈ U, ∀ m ∈ U, n ≠ m → Disjoint (l n).toFinset (l m).toFinset := by
    intro n hn m hm hne
    obtain ⟨p, hp, i, j, k, b, hs⟩ := hl n hn
    obtain ⟨q, hq, i', j', k', b', hs'⟩ := hl m hm
    rw [Finset.disjoint_left]
    intro x hx hy
    rw [List.mem_toFinset, ← hp] at hx
    rw [List.mem_toFinset, ← hq] at hy
    cases h.apart p q x hx hy
    rw [hs] at hs'
    injection hs' with hnm
    exact hne hnm
  have hsub : U.biUnion (fun n => (l n).toFinset) ⊆ Finset.range num := by
    intro x hx
    obtain ⟨n, hn, hx⟩ := Finset.mem_biUnion.mp hx
    obtain ⟨p, hp, -⟩ := hl n hn
    rw [List.mem_toFinset, ← hp] at hx
    exact Finset.mem_range.mpr (h.range p x hx).1
  have hle := Finset.card_le_card hsub
  rw [Finset.card_biUnion hdisj, Finset.sum_const_nat hcard, Finset.card_range] at hle
  have hproc : d.processed.toFinset.card ≤ d.cleared.length := by
    rw [← h.rings.processed_length]
    exact List.toFinset_card_le _
  have hdiff := Finset.le_card_sdiff d.processed.toFinset (Finset.range d.subs.length)
  rw [Finset.card_range, ← hU] at hdiff
  have hnum : num = 8 := rfl
  omega

end Kept

/-- What the rings are about. -/
def Disk.tape (d : Disk ι β) := (d.availIdx, d.avail, d.usedId, d.elems, d.seen, d.pending, d.subs, d.dones, d.cleared)

theorem Rings.same {d d' : Disk ι β} (h : Rings d) (he : d'.tape = d.tape) : Rings d' := by
  cases d
  cases d'
  simp only [Disk.tape, Prod.mk.injEq] at he
  obtain ⟨rfl, rfl, rfl, rfl, rfl, rfl, rfl, rfl, rfl⟩ := he
  exact ⟨h.availIdx, h.seen, h.took, h.numbers, h.heads, h.avail, h.usedId, h.elems, h.seenDone, h.cleared⟩

theorem Formatted.congr {d d' : Disk ι β} {i j k : Nat} (h : Formatted d i j k)
    (hd : ∀ y, y = i ∨ y = j ∨ y = k → d'.desc y = d.desc y) : Formatted d' i j k where
  linked := h.linked.congr fun y hy => by
    rw [hd y (by simpa using hy)]
    exact ⟨rfl, rfl⟩
  addr := by
    rw [hd k (by simp)]
    exact h.addr

theorem Flight.congr {d d' : Disk ι β} {n i j k : Nat} {b : β} (h : Flight d n i j k b)
    (hdesc : ∀ y, y = i ∨ y = j ∨ y = k → d'.desc y = d.desc y) (hinfo : d'.info i = d.info i)
    (hsubs : d'.subs = d.subs) (hbusy : d'.busy b = d.busy b) (hproc : d'.processed = d.processed) :
    Flight d' n i j k b where
  toFormatted := h.toFormatted.congr hdesc
  info := hinfo.trans h.info
  sub := by
    rw [hsubs]
    exact h.sub
  busy := by
    rw [hbusy, hproc]
    exact h.busy

/-- The device may complete more, and locks and descriptors may change hands. -/
theorem Fits.congr {d d' : Disk ι β} {x : Hold β} (h : Fits d x) (hdesc : d'.desc = d.desc) (hinfo : d'.info = d.info)
    (havail : d'.avail = d.avail) (hidx : d'.availIdx = d.availIdx) (hbusy : d'.busy = d.busy) (hsubs : d'.subs = d.subs)
    (hused : d'.usedIdx = d.usedIdx) (hcleared : d'.cleared = d.cleared) (hproc : d'.processed = d.processed)
    (hdones : d.dones <+: d'.dones) : Fits d' x := by
  have hform : ∀ {i j k}, Formatted d i j k → Formatted d' i j k := fun hf => hf.congr fun y _ => congrFun hdesc y
  have hflight : ∀ {n i j k b}, Flight d n i j k b → Flight d' n i j k b := fun hf =>
    hf.congr (fun y _ => congrFun hdesc y) (congrFun hinfo _) hsubs (congrFun hbusy _) hproc
  have hlinked : ∀ {l}, d.Linked l → d'.Linked l := fun hl => hl.congr fun y _ => by
    rw [hdesc]
    exact ⟨rfl, rfl⟩
  unfold Fits at h ⊢
  cases hs : x.stage with
  | taken l => trivial
  | formatted i j k =>
    rw [hs] at h
    exact ⟨hform h.1, by rw [hinfo]; exact h.2⟩
  | recorded i j k b =>
    rw [hs] at h
    refine ⟨hform h.1, by rw [hinfo]; exact h.2.1, ?_, by rw [hbusy]; exact h.2.2.2.1, h.2.2.2.2⟩
    rw [havail, hidx]
    exact h.2.2.1
  | flying n i j k b =>
    rw [hs] at h
    exact ⟨hflight h.1, h.2⟩
  | landed n i j k b =>
    rw [hs] at h
    exact ⟨hflight h.1, by rw [hproc]; exact h.2.1, h.2.2⟩
  | freeing l =>
    rw [hs] at h
    exact ⟨hlinked h.1, h.2⟩
  | freed i l =>
    rw [hs] at h
    exact hlinked h
  | looking =>
    rw [hs] at h
    have hlt : d.cleared.length < d.dones.length := h
    show d'.cleared.length < d'.dones.length
    rw [hcleared]
    exact hlt.trans_le hdones.length_le
  | found b =>
    rw [hs] at h
    obtain ⟨n, y, hn, hy⟩ := h
    refine ⟨n, y, ?_, by rw [hsubs]; exact hy⟩
    obtain ⟨t, ht⟩ := hdones
    rw [hcleared, ← ht, List.getElem?_append_left (List.getElem?_eq_some_iff.mp hn).1]
    exact hn
  | bumping =>
    rw [hs] at h
    show 0 < d'.cleared.length ∧ d'.usedIdx = (d'.cleared.length - 1) % num
    rw [hcleared, hused]
    exact h

namespace Disk
variable (d : Disk ι β)

theorem freeDesc_links (i y : Nat) : ((d.freeDesc i).desc y).flags = (d.desc y).flags ∧
    ((d.freeDesc i).desc y).next = (d.desc y).next := by
  show (Function.update d.desc i _ y).flags = _ ∧ (Function.update d.desc i _ y).next = _
  by_cases hy : y = i
  · rw [hy, Function.update_self]
    exact ⟨rfl, rfl⟩
  · rw [Function.update_of_ne hy]
    exact ⟨rfl, rfl⟩

theorem format_desc [DecidableEq ι] {p : ι} {b : β} {write : Bool} {sector i j k y : Nat} (hi : y ≠ i) (hj : y ≠ j) (hk : y ≠ k) :
    (d.format p b write sector i j k).desc y = d.desc y := by
  simp only [format, setDesc, setInfo, Function.update_of_ne hi, Function.update_of_ne hj, Function.update_of_ne hk]

theorem format_info [DecidableEq ι] {p : ι} {b : β} {write : Bool} {sector i j k : Nat} :
    (d.format p b write sector i j k).info = Function.update d.info i { d.info i with status := 0 } := rfl

/-- The descriptors of a request are linked to each other. -/
theorem format_formatted [DecidableEq ι] {p : ι} {b : β} {write : Bool} {sector i j k : Nat} (hn : [i, j, k].Nodup) :
    Formatted (d.format p b write sector i j k) i j k := by
  have hij : i ≠ j := by
    intro h
    simp [h] at hn
  have hik : i ≠ k := by
    intro h
    simp [h] at hn
  have hjk : j ≠ k := by
    intro h
    simp [h] at hn
  have hi : (d.format p b write sector i j k).desc i = ⟨.header p, 16, flagNext, j⟩ := by
    simp only [format, setDesc, setInfo, Function.update_of_ne hik, Function.update_of_ne hij, Function.update_self]
  have hj : (d.format p b write sector i j k).desc j =
      ⟨.data b, bsize, (if write then 0 else flagWrite) ||| flagNext, k⟩ := by
    simp only [format, setDesc, setInfo, Function.update_of_ne hjk, Function.update_self]
  have hk : (d.format p b write sector i j k).desc k = ⟨.status i, 1, flagWrite, 0⟩ := by
    simp only [format, setDesc, Function.update_self]
  refine ⟨⟨?_, ?_, ?_, ?_, ?_⟩, ?_⟩
  · rw [hi]
    show flagNext &&& flagNext ≠ 0
    decide
  · rw [hi]
  · rw [hj]
    show ((if write then 0 else flagWrite) ||| flagNext) &&& flagNext ≠ 0
    cases write
    · exact (by decide : (flagWrite ||| flagNext) &&& flagNext ≠ 0)
    · exact (by decide : (0 ||| flagNext) &&& flagNext ≠ 0)
  · rw [hj]
  · rw [Linked, hk]
    show flagWrite &&& flagNext = 0
    decide
  · rw [hk]

end Disk

/-! ### Sections -/

section Sections
variable [DecidableEq ι]

/-- Sections under the lock that leave the descriptors where they are. -/
theorem Kept.stays {d d' : Disk ι β} {own : ι → Hold β} {p : ι} {x : Hold β} (h : Kept d own)
    (hcalm : ∀ q, q ≠ p → Calm (own q)) (hlock : d'.lock = d.lock) (hfree : d'.free = d.free)
    (hheld : x.held = (own p).held) (hdescs : x.stage.descs = (own p).stage.descs) (hfits : Fits d' x)
    (hothers : ∀ q, q ≠ p → ∀ n i j k b, (own q).stage = .flying n i j k b → Flight d' n i j k b)
    (hinfo : ∀ h b, (d'.info h).b = some b → x.stage.request = some (h, b) ∨
      ∃ q, q ≠ p ∧ (own q).stage.request = some (h, b))
    (hflying : ∀ n, n < d'.subs.length → n ∉ d'.processed → (∃ i j k b, x.stage = .flying n i j k b) ∨
      ∃ q, q ≠ p ∧ ∃ i j k b, (own q).stage = .flying n i j k b)
    (hcounted : ((own p).stage ≠ .bumping → d.usedIdx = d.cleared.length % num) →
      x.stage ≠ .bumping → d'.usedIdx = d'.cleared.length % num)
    (hrings : Rings d') : Kept d' (Function.update own p x) := by
  have hdescs' : ∀ q, (Function.update own p x q).stage.descs = (own q).stage.descs := by
    intro q
    by_cases hq : q = p
    · subst hq
      rw [Function.update_self, hdescs]
    · rw [Function.update_of_ne hq]
  constructor
  · intro q b hb
    have hb' : (own q).held b = true := by
      by_cases hq : q = p
      · subst hq
        rwa [Function.update_self, hheld] at hb
      · rwa [Function.update_of_ne hq] at hb
    rw [hlock]
    exact h.held q b hb'
  · intro q y hy
    rw [hdescs'] at hy
    rw [hfree]
    exact h.range q y hy
  · intro q
    rw [hdescs']
    exact h.nodup q
  · intro q r y hy hy'
    rw [hdescs'] at hy hy'
    exact h.apart q r y hy hy'
  · intro y hy hf
    rw [hfree] at hf
    obtain ⟨q, hq⟩ := h.taken y hy hf
    refine ⟨q, ?_⟩
    rwa [hdescs']
  · intro q
    by_cases hq : q = p
    · subst hq
      rw [Function.update_self]
      exact hfits
    · rw [Function.update_of_ne hq]
      have hold := h.fits q
      obtain hs | ⟨n, i, j, k, b, hs⟩ := hcalm q hq
      · rw [Fits, hs]
        trivial
      · rw [Fits, hs] at hold ⊢
        exact ⟨hothers q hq n i j k b hs, hold.2⟩
  · intro y b hb
    obtain hx | ⟨q, hq, hx⟩ := hinfo y b hb
    · refine ⟨p, ?_⟩
      rwa [Function.update_self]
    · refine ⟨q, ?_⟩
      rwa [Function.update_of_ne hq]
  · intro n hn hp
    obtain hx | ⟨q, hq, hx⟩ := hflying n hn hp
    · refine ⟨p, ?_⟩
      rwa [Function.update_self]
    · refine ⟨q, ?_⟩
      rwa [Function.update_of_ne hq]
  · intro hb
    refine hcounted (fun hne => h.counted fun q hq => ?_) ?_
    · by_cases hqp : q = p
      · subst hqp
        exact hne hq
      · have := hb q
        rw [Function.update_of_ne hqp] at this
        exact this hq
    · have := hb p
      rwa [Function.update_self] at this
  · exact hrings

namespace Kept
variable {d : Disk ι β} {own : ι → Hold β} {p : ι} {x : Hold β}

omit [DecidableEq ι] in
theorem flight (h : Kept d own) {q : ι} {n i j k : Nat} {b : β} (hs : (own q).stage = .flying n i j k b) :
    Flight d n i j k b ∧ (own q).held b = true := by
  have := h.fits q
  rwa [Fits, hs] at this

omit [DecidableEq ι] in
/-- The descriptors of another thread's request. -/
theorem flight_apart (h : Kept d own) {q : ι} (hq : q ≠ p) {n i j k : Nat} {b : β}
    (hs : (own q).stage = .flying n i j k b) : ∀ y ∈ (own p).stage.descs, y ≠ i ∧ y ≠ j ∧ y ≠ k := by
  intro y hy
  have hne : ∀ z, z ∈ (own q).stage.descs → y ≠ z := by
    intro z hz hyz
    subst hyz
    exact hq (h.apart q p y hz hy)
  rw [hs] at hne
  exact ⟨hne i (by simp [Stage.descs]), hne j (by simp [Stage.descs]), hne k (by simp [Stage.descs])⟩

omit [DecidableEq ι] in
/-- The buffer of another thread's request. -/
theorem flight_buf (h : Kept d own) {q : ι} (hq : q ≠ p) {n i j k : Nat} {b b' : β}
    (hs : (own q).stage = .flying n i j k b) (hb' : (own p).held b' = true) : b ≠ b' := by
  intro hbb
  subst hbb
  exact hq (Option.some.inj ((h.held q b (h.flight hs).2).symm.trans (h.held p b hb')))

/-- A thread gets further without changing the disk. -/
theorem turns (h : Kept d own) (hcalm : ∀ q, q ≠ p → Calm (own q)) (hheld : x.held = (own p).held)
    (hdescs : x.stage.descs = (own p).stage.descs) (hrequest : x.stage.request = (own p).stage.request)
    (hfits : Fits d x)
    (hflying : ∀ n i j k b, (own p).stage = .flying n i j k b → n ∈ d.processed ∨ x.stage = .flying n i j k b)
    (hbump : (own p).stage ≠ .bumping) : Kept d (Function.update own p x) := by
  refine h.stays hcalm rfl rfl hheld hdescs hfits (fun q _ n i j k b hs => (h.flight hs).1) (fun y b hb => ?_)
    (fun n hn hp => ?_) (fun hc _ => hc hbump) h.rings
  · obtain ⟨q, hq⟩ := h.info y b hb
    by_cases hqp : q = p
    · subst hqp
      exact .inl (hrequest.trans hq)
    · exact .inr ⟨q, hqp, hq⟩
  · obtain ⟨q, i, j, k, b, hq⟩ := h.flying n hn hp
    by_cases hqp : q = p
    · subst hqp
      obtain hin | hx := hflying n i j k b hq
      · exact absurd hin hp
      · exact .inl ⟨i, j, k, b, hx⟩
    · exact .inr ⟨q, hqp, i, j, k, b, hq⟩

omit [DecidableEq ι] in
theorem flying_other (h : Kept d own) (hp : ∀ n i j k b, (own p).stage ≠ .flying n i j k b) {n : Nat}
    (hn : n < d.subs.length) (hproc : n ∉ d.processed) :
    ∃ q, q ≠ p ∧ ∃ i j k b, (own q).stage = .flying n i j k b := by
  obtain ⟨q, i, j, k, b, hq⟩ := h.flying n hn hproc
  refine ⟨q, fun hqp => ?_, i, j, k, b, hq⟩
  subst hqp
  exact hp n i j k b hq

end Kept

/-! ### A request -/

namespace Kept
variable {d : Disk ι β} {own : ι → Hold β} {p : ι} {held : β → Bool}

theorem format (h : Kept d own) (hcalm : ∀ q, q ≠ p → Calm (own q)) {i j k : Nat} (hp : own p = ⟨held, .taken [i, j, k]⟩)
    (b : β) (write : Bool) (sector : Nat) :
    Kept (d.format p b write sector i j k) (Function.update own p ⟨held, .formatted i j k⟩) := by
  have hdescs : (own p).stage.descs = [i, j, k] := by rw [hp]; rfl
  have hnodup : [i, j, k].Nodup := by
    rw [← hdescs]
    exact h.nodup p
  have hmem : ∀ y, y = i ∨ y = j ∨ y = k → y ∈ (own p).stage.descs := by
    intro y hy
    rw [hdescs]
    simpa using hy
  have hbefore : ∀ y b, ((d.format p b write sector i j k).info y).b = (d.info y).b := by
    intro y b
    rw [Disk.format_info]
    by_cases hy : y = i
    · rw [hy, Function.update_self]
    · rw [Function.update_of_ne hy]
  refine h.stays hcalm rfl rfl (by rw [hp]) (by rw [hdescs]; rfl) ⟨d.format_formatted hnodup, ?_⟩
    (fun q hq n i' j' k' b' hs => ?_) (fun y b' hb' => ?_)
    (fun n hn hproc => .inr (h.flying_other (fun n i j k b hs => by rw [hp] at hs; cases hs) hn hproc))
    (fun hc _ => hc (by rw [hp]; exact fun hs => nomatch hs)) (h.rings.same rfl)
  · show ((d.format p b write sector i j k).info i).status = 0
    rw [Disk.format_info, Function.update_self]
  · have hf := (h.flight hs).1
    have hne := h.flight_apart hq hs
    have hi := hne i (hmem i (by simp))
    have hj := hne j (hmem j (by simp))
    have hk := hne k (hmem k (by simp))
    refine ⟨hf.toFormatted.congr fun y hy => d.format_desc ?_ ?_ ?_, ?_, hf.sub, hf.busy⟩
    · rcases hy with rfl | rfl | rfl
      · exact hi.1.symm
      · exact hi.2.1.symm
      · exact hi.2.2.symm
    · rcases hy with rfl | rfl | rfl
      · exact hj.1.symm
      · exact hj.2.1.symm
      · exact hj.2.2.symm
    · rcases hy with rfl | rfl | rfl
      · exact hk.1.symm
      · exact hk.2.1.symm
      · exact hk.2.2.symm
    · rw [Disk.format_info, Function.update_of_ne hi.1.symm]
      exact hf.info
  · rw [hbefore] at hb'
    obtain ⟨q, hq⟩ := h.info y b' hb'
    refine .inr ⟨q, fun hqp => ?_, hq⟩
    subst hqp
    rw [hp] at hq
    cases hq

theorem uint16_mod (n : Nat) : uint16 n % num = n % num := Nat.mod_mod_of_dvd n ⟨2 ^ 13, by decide⟩

theorem record (h : Kept d own) (hcalm : ∀ q, q ≠ p → Calm (own q)) {i j k : Nat}
    (hp : own p = ⟨held, .formatted i j k⟩) {b : β} (hb : held b = true) [DecidableEq β] :
    Kept (d.record b i) (Function.update own p ⟨held, .recorded i j k b⟩) := by
  have hdescs : (own p).stage.descs = [i, j, k] := by rw [hp]; rfl
  have hfits := h.fits p
  rw [Fits, hp] at hfits
  refine h.stays hcalm rfl rfl (by rw [hp]) (by rw [hdescs]; rfl) ⟨hfits.1.congr fun _ _ => rfl, ?_, ?_, ?_, hb⟩
    (fun q hq n i' j' k' b' hs => ?_) (fun y b' hb' => ?_)
    (fun n hn hproc => .inr (h.flying_other (fun n i j k b hs => by rw [hp] at hs; cases hs) hn hproc))
    (fun hc _ => hc (by rw [hp]; exact fun hs => nomatch hs)) ?_
  · show Function.update d.info i _ i = _
    rw [Function.update_self, hfits.2]
  · exact Function.update_self ..
  · exact Function.update_self ..
  · have hf := (h.flight hs).1
    have hi := h.flight_apart hq hs i (by rw [hdescs]; simp)
    have hbb : b' ≠ b := h.flight_buf hq hs (by rw [hp]; exact hb)
    refine ⟨hf.toFormatted.congr fun _ _ => rfl, ?_, hf.sub, ?_⟩
    · show Function.update d.info i _ i' = _
      rw [Function.update_of_ne hi.1.symm]
      exact hf.info
    · show Function.update d.busy b true b' = true ↔ _
      rw [Function.update_of_ne hbb]
      exact hf.busy
  · by_cases hy : y = i
    · left
      subst hy
      have hsome : some b = some b' := by
        rw [← hb']
        show _ = (Function.update d.info y _ y).b
        rw [Function.update_self]
      rw [← Option.some.inj hsome]
      rfl
    · have hold : (d.info y).b = some b' := by
        rw [← hb']
        show _ = (Function.update d.info i _ y).b
        rw [Function.update_of_ne hy]
      obtain ⟨q, hq⟩ := h.info y b' hold
      refine .inr ⟨q, fun hqp => ?_, hq⟩
      subst hqp
      rw [hp] at hq
      cases hq
  · -- the slot written is none of those that the device has yet to read
    have hr := h.rings
    refine ⟨hr.availIdx, hr.seen, hr.took, hr.numbers, hr.heads, fun n y b' hn hs => ?_, hr.usedId, hr.elems,
      hr.seenDone, hr.cleared⟩
    have hlt : n < d.subs.length := (List.getElem?_eq_some_iff.mp hs).1
    have hfew := h.few
    have hdone := hr.seenDone
    have htook : d.dones.length + d.pending.length ≤ n := hn
    have hne : n % num ≠ d.availIdx % num := by
      rw [hr.availIdx, uint16_mod]
      unfold num
      omega
    show Function.update d.avail (d.availIdx % num) i (n % num) = y
    rw [Function.update_of_ne hne]
    exact hr.avail n y b' hn hs

theorem publish (h : Kept d own) (hcalm : ∀ q, q ≠ p → Calm (own q)) {i j k : Nat} {b : β}
    (hp : own p = ⟨held, .recorded i j k b⟩) :
    Kept (d.publish b i) (Function.update own p ⟨held, .flying d.subs.length i j k b⟩) := by
  have hr := h.rings
  have hold : ∀ n, n < d.subs.length → (d.subs ++ [(i, b)])[n]? = d.subs[n]? := fun n hn => List.getElem?_append_left hn
  have hlast : (d.subs ++ [(i, b)])[d.subs.length]? = some (i, b) := by simp
  have hdone : ∀ n, n ∈ d.dones → n < d.subs.length := fun n hn => (hr.done_lt hn).trans_le hr.took
  have hin : ∀ (n : Nat) x, d.subs[n]? = some x → (d.subs ++ [(i, b)])[n]? = some x := by
    intro n x hx
    rw [hold n (List.getElem?_eq_some_iff.mp hx).1]
    exact hx
  obtain ⟨hform, hinfo, havail, hbusy, hheld⟩ : Formatted d i j k ∧ d.info i = ⟨some b, 0⟩ ∧
      d.avail (d.availIdx % num) = i ∧ d.busy b = true ∧ held b = true := by
    have hfits := h.fits p
    rwa [Fits, hp] at hfits
  have hnew : d.subs.length ∉ d.processed := fun hm => absurd (hdone _ (List.mem_of_mem_take hm)) (Nat.lt_irrefl _)
  refine h.stays hcalm rfl rfl (by rw [hp]) (by rw [hp]; rfl)
    ⟨⟨hform.congr fun _ _ => rfl, hinfo, hlast, fun _ => hnew, fun _ => hbusy⟩, hheld⟩
    (fun q hq n i' j' k' b' hs => ?_) (fun y b' hb' => ?_) (fun n hn hproc => ?_)
    (fun hc _ => hc (by rw [hp]; exact fun hs => nomatch hs)) ?_
  · have hf := (h.flight hs).1
    exact ⟨hf.toFormatted.congr fun _ _ => rfl, hf.info, hin n _ hf.sub, hf.busy⟩
  · obtain ⟨q, hq⟩ := h.info y b' hb'
    by_cases hqp : q = p
    · subst hqp
      rw [hp] at hq
      exact .inl hq
    · exact .inr ⟨q, hqp, hq⟩
  · have hn' : n < d.subs.length + 1 := by
      have hlen : n < (d.subs ++ [(i, b)]).length := hn
      simpa using hlen
    by_cases heq : n = d.subs.length
    · subst heq
      exact .inl ⟨i, j, k, b, rfl⟩
    · exact .inr (h.flying_other (fun n i j k b hs => by rw [hp] at hs; cases hs) (by omega) hproc)
  · have hlen : (d.subs ++ [(i, b)]).length = d.subs.length + 1 := by simp
    refine ⟨?_, hr.seen, ?_, hr.numbers, fun x hx => ?_, fun n y b' hn hs => ?_, hr.usedId, fun m n y b' hm hn hs => ?_,
      hr.seenDone, fun m b' hb' => ?_⟩
    · show uint16 (d.availIdx + 1) = uint16 (d.subs ++ [(i, b)]).length
      rw [hr.availIdx, hlen]
      unfold uint16
      omega
    · show d.took ≤ (d.subs ++ [(i, b)]).length
      rw [hlen]
      exact Nat.le_succ_of_le hr.took
    · obtain ⟨b', hb'⟩ := hr.heads x hx
      exact ⟨b', hin _ _ hb'⟩
    · have hs' : (d.subs ++ [(i, b)])[n]? = some (y, b') := hs
      by_cases heq : n < d.subs.length
      · rw [hold n heq] at hs'
        exact hr.avail n y b' hn hs'
      · have hlt := (List.getElem?_eq_some_iff.mp hs').1
        obtain rfl : n = d.subs.length := by omega
        rw [hlast] at hs'
        cases hs'
        rw [← havail, hr.availIdx, uint16_mod]
        rfl
    · have hs' : (d.subs ++ [(i, b)])[n]? = some (y, b') := hs
      rw [hold n (hdone n (List.mem_of_getElem? hn))] at hs'
      exact hr.elems m n y b' hm hn hs'
    · obtain ⟨n, y, hn, hs⟩ := hr.cleared m b' hb'
      exact ⟨n, y, hn, hin _ _ hs⟩

theorem forget (h : Kept d own) (hcalm : ∀ q, q ≠ p → Calm (own q)) {n i j k : Nat} {b : β}
    (hp : own p = ⟨held, .landed n i j k b⟩) :
    Kept (d.forget i) (Function.update own p ⟨held, .freeing [i, j, k]⟩) := by
  have hdescs : (own p).stage.descs = [i, j, k] := by rw [hp]; rfl
  obtain ⟨hfl, -, -⟩ : Flight d n i j k b ∧ n ∈ d.processed ∧ held b = true := by
    have hfits := h.fits p
    rwa [Fits, hp] at hfits
  refine h.stays hcalm rfl rfl (by rw [hp]) (by rw [hdescs]; rfl)
    ⟨hfl.linked.congr fun _ _ => ⟨rfl, rfl⟩, by simp⟩
    (fun q hq n' i' j' k' b' hs => ?_) (fun y b' hb' => ?_)
    (fun n hn hproc => .inr (h.flying_other (fun n i j k b hs => by rw [hp] at hs; cases hs) hn hproc))
    (fun hc _ => hc (by rw [hp]; exact fun hs => nomatch hs)) (h.rings.same rfl)
  · have hf := (h.flight hs).1
    have hi := h.flight_apart hq hs i (by rw [hdescs]; simp)
    refine ⟨hf.toFormatted.congr fun _ _ => rfl, ?_, hf.sub, hf.busy⟩
    show Function.update d.info i _ i' = _
    rw [Function.update_of_ne hi.1.symm]
    exact hf.info
  · have hy : y ≠ i := by
      intro hy
      subst hy
      have hnone : (Function.update d.info y { d.info y with b := none } y).b = some b' := hb'
      rw [Function.update_self] at hnone
      cases hnone
    have hold : (Function.update d.info i { d.info i with b := none } y).b = some b' := hb'
    rw [Function.update_of_ne hy] at hold
    obtain ⟨q, hq⟩ := h.info y b' hold
    refine .inr ⟨q, fun hqp => ?_, hq⟩
    subst hqp
    rw [hp] at hq
    cases hq
    exact hy rfl

/-! ### Descriptors -/

theorem gain (h : Kept d own) {l : List Nat} {i : Nat} (hp : own p = ⟨held, .taken l⟩) (hi : d.firstFree = some i) :
    Kept d.allocDesc (Function.update own p ⟨held, .taken (l ++ [i])⟩) := by
  have hfree : d.free i = true := by simpa using List.find?_some hi
  have hlt : i < num := List.mem_range.mp (List.mem_of_find?_eq_some hi)
  have hnew : ∀ q, i ∉ (own q).stage.descs := by
    intro q hq
    have := (h.range q i hq).2
    rw [hfree] at this
    cases this
  have hd : d.allocDesc = { d with free := Function.update d.free i false } := by rw [Disk.allocDesc, hi]
  have hdescs : ∀ q y, y ∈ (Function.update own p ⟨held, .taken (l ++ [i])⟩ q).stage.descs ↔
      y ∈ (own q).stage.descs ∨ y = i ∧ q = p := by
    intro q y
    by_cases hq : q = p
    · subst hq
      rw [Function.update_self, hp]
      simp [Stage.descs]
    · rw [Function.update_of_ne hq]
      simp [hq]
  have hstage : ∀ q, q ≠ p → Function.update own p ⟨held, .taken (l ++ [i])⟩ q = own q :=
    fun q hq => Function.update_of_ne hq ..
  rw [hd]
  refine ⟨fun q b hb => ?_, fun q y hy => ?_, fun q => ?_, fun q r y hq hr => ?_, fun y hy hf => ?_, fun q => ?_,
    fun y b hb => ?_, fun n hn hproc => ?_, fun hb => ?_, h.rings.same rfl⟩
  · refine h.held q b ?_
    by_cases hq : q = p
    · subst hq
      rw [Function.update_self] at hb
      rw [hp]
      exact hb
    · rwa [hstage q hq] at hb
  · show y < num ∧ Function.update d.free i false y = false
    obtain hy | ⟨hyi, -⟩ := (hdescs q y).mp hy
    · obtain ⟨h1, h2⟩ := h.range q y hy
      have hyi : y ≠ i := by
        intro hyi
        rw [hyi] at hy
        exact hnew q hy
      rw [Function.update_of_ne hyi]
      exact ⟨h1, h2⟩
    · rw [hyi, Function.update_self]
      exact ⟨hlt, rfl⟩
  · by_cases hq : q = p
    · subst hq
      rw [Function.update_self]
      have hold := h.nodup q
      have hni := hnew q
      rw [hp] at hold hni
      exact List.nodup_append.mpr ⟨hold, by simp, fun a ha b hb hab => hni (by
        obtain rfl := List.mem_singleton.mp hb
        rw [← hab]
        exact ha)⟩
    · rw [hstage q hq]
      exact h.nodup q
  · rw [hdescs] at hq hr
    rcases hq with hq | ⟨rfl, rfl⟩
    · rcases hr with hr | ⟨rfl, rfl⟩
      · exact h.apart q r y hq hr
      · exact absurd hq (hnew q)
    · rcases hr with hr | ⟨-, rfl⟩
      · exact absurd hr (hnew r)
      · rfl
  · by_cases hyi : y = i
    · subst hyi
      exact ⟨p, (hdescs p y).mpr (.inr ⟨rfl, rfl⟩)⟩
    · have hf' : Function.update d.free i false y = false := hf
      rw [Function.update_of_ne hyi] at hf'
      obtain ⟨q, hq⟩ := h.taken y hy hf'
      exact ⟨q, (hdescs q y).mpr (.inl hq)⟩
  · by_cases hq : q = p
    · subst hq
      rw [Function.update_self]
      trivial
    · rw [hstage q hq]
      exact (h.fits q).congr rfl rfl rfl rfl rfl rfl rfl rfl rfl (List.prefix_refl _)
  · obtain ⟨q, hq⟩ := h.info y b hb
    have hqp : q ≠ p := by
      intro hqp
      subst hqp
      rw [hp] at hq
      cases hq
    exact ⟨q, by rwa [hstage q hqp]⟩
  · obtain ⟨q, hqp, hq⟩ := h.flying_other (p := p) (fun n i j k b hs => by rw [hp] at hs; cases hs) hn hproc
    exact ⟨q, by rwa [hstage q hqp]⟩
  · refine h.counted fun q hq => ?_
    by_cases hqp : q = p
    · subst hqp
      rw [hp] at hq
      cases hq
    · have := hb q
      rw [hstage q hqp] at this
      exact this hq

theorem lose (h : Kept d own) (hcalm : ∀ q, q ≠ p → Calm (own q)) {i : Nat} {l : List Nat} {x : Hold β}
    (hdescs : (own p).stage.descs = i :: l) (hx : x.stage.descs = l) (hheld : x.held = (own p).held)
    (hrequest : (own p).stage.request = none) (hp : ∀ n i j k b, (own p).stage ≠ .flying n i j k b)
    (hbump : (own p).stage ≠ .bumping) (hfits : Fits (d.freeDesc i) x) :
    Kept (d.freeDesc i) (Function.update own p x) := by
  have hnodup := h.nodup p
  rw [hdescs] at hnodup
  have hgone : ∀ q y, y ∈ (Function.update own p x q).stage.descs → y ≠ i ∧ y ∈ (own q).stage.descs := by
    intro q y hy
    by_cases hq : q = p
    · subst hq
      rw [Function.update_self, hx] at hy
      rw [hdescs]
      exact ⟨fun hyi => (List.nodup_cons.mp hnodup).1 (hyi ▸ hy), List.mem_cons_of_mem i hy⟩
    · rw [Function.update_of_ne hq] at hy
      exact ⟨fun hyi => hq (h.apart q p y hy (by rw [hdescs, hyi]; exact List.mem_cons_self ..)), hy⟩
  have hstage : ∀ q, q ≠ p → Function.update own p x q = own q := fun q hq => Function.update_of_ne hq ..
  refine ⟨fun q b hb => ?_, fun q y hy => ?_, fun q => ?_, fun q r y hq hr => ?_, fun y hy hf => ?_, fun q => ?_,
    fun y b hb => ?_, fun n hn hproc => ?_, fun hb => ?_, h.rings.same rfl⟩
  · refine h.held q b ?_
    by_cases hq : q = p
    · subst hq
      rwa [Function.update_self, hheld] at hb
    · rwa [hstage q hq] at hb
  · obtain ⟨hyi, hy⟩ := hgone q y hy
    obtain ⟨h1, h2⟩ := h.range q y hy
    refine ⟨h1, ?_⟩
    show Function.update d.free i true y = false
    rw [Function.update_of_ne hyi]
    exact h2
  · by_cases hq : q = p
    · subst hq
      rw [Function.update_self, hx]
      exact (List.nodup_cons.mp hnodup).2
    · rw [hstage q hq]
      exact h.nodup q
  · exact h.apart q r y (hgone q y hq).2 (hgone r y hr).2
  · have hf' : Function.update d.free i true y = false := hf
    have hyi : y ≠ i := by
      intro hyi
      rw [hyi, Function.update_self] at hf'
      cases hf'
    rw [Function.update_of_ne hyi] at hf'
    obtain ⟨q, hq⟩ := h.taken y hy hf'
    refine ⟨q, ?_⟩
    by_cases hqp : q = p
    · subst hqp
      rw [hdescs] at hq
      rw [Function.update_self, hx]
      exact (List.mem_cons.mp hq).resolve_left hyi
    · rwa [hstage q hqp]
  · by_cases hq : q = p
    · subst hq
      rw [Function.update_self]
      exact hfits
    · rw [hstage q hq]
      have hold := h.fits q
      obtain hs | ⟨n, i', j', k', b, hs⟩ := hcalm q hq
      · rw [Fits, hs]
        trivial
      · have hne := h.flight_apart hq hs i (by rw [hdescs]; exact List.mem_cons_self ..)
        rw [Fits, hs] at hold ⊢
        refine ⟨⟨⟨hold.1.linked.congr fun y _ => d.freeDesc_links i y, ?_⟩, hold.1.info, hold.1.sub, hold.1.busy⟩, hold.2⟩
        show (Function.update d.desc i _ k').addr = _
        rw [Function.update_of_ne hne.2.2.symm]
        exact hold.1.addr
  · obtain ⟨q, hq⟩ := h.info y b hb
    have hqp : q ≠ p := by
      intro hqp
      subst hqp
      rw [hrequest] at hq
      cases hq
    exact ⟨q, by rwa [hstage q hqp]⟩
  · obtain ⟨q, hqp, hq⟩ := h.flying_other hp hn hproc
    exact ⟨q, by rwa [hstage q hqp]⟩
  · refine h.counted fun q hq => ?_
    by_cases hqp : q = p
    · subst hqp
      exact hbump hq
    · have := hb q
      rw [hstage q hqp] at this
      exact this hq

/-! ### An interrupt -/

omit [DecidableEq ι] in
theorem calm_counted (h : Kept d own) (hcalm : ∀ q, q ≠ p → Calm (own q)) (hp : (own p).stage ≠ .bumping) :
    d.usedIdx = d.cleared.length % num := by
  refine h.counted fun q hq => ?_
  by_cases hqp : q = p
  · subst hqp
    exact hp hq
  · obtain hs | ⟨n, i, j, k, b, hs⟩ := hcalm q hqp
    · rw [hs] at hq
      cases hq
    · rw [hs] at hq
      cases hq

omit [DecidableEq ι] in
/-- The handler looks for more exactly if there is more. -/
theorem more_iff (h : Kept d own) (hcalm : ∀ q, q ≠ p → Calm (own q)) (hp : (own p).stage ≠ .bumping) :
    d.usedIdx % num ≠ d.usedId % num ↔ d.cleared.length < d.dones.length := by
  have hr := h.rings
  have hfew := h.few
  have htook : d.dones.length + d.pending.length ≤ d.subs.length := hr.took
  have hdone := hr.seenDone
  rw [h.calm_counted hcalm hp, hr.usedId, uint16_mod]
  unfold num
  omega

/-- What the handler finds in the ring is the request that was completed. -/
theorem find (h : Kept d own) (hcalm : ∀ q, q ≠ p → Calm (own q)) (hp : own p = ⟨held, .looking⟩) :
    ∃ b, d.elems d.usedIdx < num ∧ d.info (d.elems d.usedIdx) = ⟨some b, 0⟩ ∧
      Kept d (Function.update own p ⟨held, .found b⟩) := by
  have hne : (own p).stage ≠ .bumping := by
    rw [hp]
    exact fun hs => nomatch hs
  have hmore : d.cleared.length < d.dones.length := by
    have hfits := h.fits p
    rwa [Fits, hp] at hfits
  obtain ⟨n, hn⟩ : ∃ n, d.dones[d.cleared.length]? = some n := ⟨_, List.getElem?_eq_getElem hmore⟩
  have hlt : n < d.subs.length := (h.rings.done_lt (List.mem_of_getElem? hn)).trans_le h.rings.took
  obtain ⟨q, i, j, k, b, hq⟩ := h.flying n hlt (h.rings.not_processed (Nat.le_refl _) hn)
  have hf := (h.flight hq).1
  have helem : d.elems d.usedIdx = i := by
    rw [h.calm_counted hcalm hne]
    exact h.rings.elems _ n i b (Nat.le_refl _) hn hf.sub
  rw [helem]
  refine ⟨b, (h.range q i (by rw [hq]; simp [Stage.descs])).1, hf.info, ?_⟩
  refine h.turns hcalm (by rw [hp]) (by rw [hp]; rfl) (by rw [hp]; rfl) ⟨n, i, hn, hf.sub⟩ (fun n i j k b hs => ?_) hne
  rw [hp] at hs
  cases hs

theorem clear (h : Kept d own) (hcalm : ∀ q, q ≠ p → Calm (own q)) {b : β} (hp : own p = ⟨held, .found b⟩)
    [DecidableEq β] : Kept (d.clear b) (Function.update own p ⟨held, .bumping⟩) := by
  have hr := h.rings
  have hne : (own p).stage ≠ .bumping := by
    rw [hp]
    exact fun hs => nomatch hs
  obtain ⟨n, y, hn, hy⟩ : ∃ n y : Nat, d.dones[d.cleared.length]? = some n ∧ d.subs[n]? = some (y, b) := by
    have hfits := h.fits p
    rwa [Fits, hp] at hfits
  have hlt := (List.getElem?_eq_some_iff.mp hn).1
  have hlen : (d.cleared ++ [b]).length = d.cleared.length + 1 := by simp
  have hproc : (d.clear b).processed = d.processed ++ [n] := by
    show d.dones.take (d.cleared ++ [b]).length = d.dones.take d.cleared.length ++ [n]
    rw [hlen, List.take_add_one, hn]
    rfl
  refine h.stays hcalm rfl rfl (by rw [hp]) (by rw [hp]; rfl) ⟨?_, ?_⟩ (fun q hq n' i j k b' hs => ?_) (fun z b' hb' => ?_)
    (fun n' hn' hp' => .inr (h.flying_other (fun n i j k b hs => by rw [hp] at hs; cases hs) hn' ?_))
    (fun _ hx => absurd rfl hx) ?_
  · show 0 < (d.cleared ++ [b]).length
    omega
  · show d.usedIdx = ((d.cleared ++ [b]).length - 1) % num
    rw [hlen, h.calm_counted hcalm hne]
    rfl
  · -- the flag that is cleared is the one of the request with this number
    have hf := (h.flight hs).1
    refine ⟨hf.toFormatted.congr fun _ _ => rfl, hf.info, hf.sub, ?_⟩
    show Function.update d.busy b false b' = true ↔ _
    rw [hproc, List.mem_append, List.mem_singleton, not_or]
    by_cases hnn : n' = n
    · subst hnn
      obtain ⟨-, rfl⟩ : i = y ∧ b' = b := by
        have hsame := hf.sub.symm.trans hy
        simpa using hsame
      rw [Function.update_self]
      simp
    · have hbb : b' ≠ b := by
        have hn'' : n < d.subs.length := (hr.done_lt (List.mem_of_getElem? hn)).trans_le hr.took
        obtain ⟨q', i', j', k', b'', hq'⟩ := h.flying n hn'' (hr.not_processed (Nat.le_refl _) hn)
        have hf' := (h.flight hq').1
        obtain ⟨-, rfl⟩ : i' = y ∧ b'' = b := by
          have hsame := hf'.sub.symm.trans hy
          simpa using hsame
        have hqq : q ≠ q' := by
          intro hqq
          subst hqq
          rw [hs] at hq'
          injection hq' with hnn'
          exact hnn hnn'
        exact h.flight_buf hqq hs (h.flight hq').2
      rw [Function.update_of_ne hbb, hf.busy]
      simp [hnn]
  · obtain ⟨q, hq⟩ := h.info z b' hb'
    refine .inr ⟨q, fun hqp => ?_, hq⟩
    subst hqp
    rw [hp] at hq
    cases hq
  · intro hin
    rw [hproc] at hp'
    exact hp' (List.mem_append_left _ hin)
  · refine ⟨hr.availIdx, hr.seen, hr.took, hr.numbers, hr.heads, hr.avail, hr.usedId, fun m n' z b' hm => ?_, ?_,
      fun m b' hb' => ?_⟩
    · have hm' : (d.cleared ++ [b]).length ≤ m := hm
      exact hr.elems m n' z b' (by omega)
    · show (d.cleared ++ [b]).length ≤ d.dones.length
      omega
    · have hb'' : (d.cleared ++ [b])[m]? = some b' := hb'
      by_cases hmlt : m < d.cleared.length
      · rw [List.getElem?_append_left hmlt] at hb''
        exact hr.cleared m b' hb''
      · have hmle := (List.getElem?_eq_some_iff.mp hb'').1
        obtain rfl : m = d.cleared.length := by omega
        obtain rfl : b = b' := by simpa using hb''
        exact ⟨n, y, hn, hy⟩

theorem bump (h : Kept d own) (hcalm : ∀ q, q ≠ p → Calm (own q)) (hp : own p = ⟨held, .bumping⟩) :
    Kept { d with usedIdx := (d.usedIdx + 1) % num } (Function.update own p ⟨held, .idle⟩) := by
  obtain ⟨hpos, hused⟩ : 0 < d.cleared.length ∧ d.usedIdx = (d.cleared.length - 1) % num := by
    have hfits := h.fits p
    rwa [Fits, hp] at hfits
  refine h.stays hcalm rfl rfl (by rw [hp]) (by rw [hp]; rfl) trivial
    (fun q hq n i j k b hs => (h.flight hs).1.congr (fun _ _ => rfl) rfl rfl rfl rfl) (fun z b' hb' => ?_)
    (fun n hn hproc => .inr (h.flying_other (fun n i j k b hs => by rw [hp] at hs; cases hs) hn hproc))
    (fun _ _ => ?_) (h.rings.same rfl)
  · obtain ⟨q, hq⟩ := h.info z b' hb'
    refine .inr ⟨q, fun hqp => ?_, hq⟩
    subst hqp
    rw [hp] at hq
    cases hq
  · show (d.usedIdx + 1) % num = d.cleared.length % num
    rw [hused]
    unfold num
    omega

/-! ### Without the lock -/

/-- A buffer is locked or unlocked. -/
theorem relock (h : Kept d own) (hp : (own p).stage = .idle) {lock : β → Option ι} {held' : β → Bool}
    (hmine : ∀ b, held' b = true → lock b = some p)
    (hothers : ∀ q b, q ≠ p → d.lock b = some q → lock b = some q) :
    Kept { d with lock } (Function.update own p ⟨held', .idle⟩) := by
  have hstage : ∀ q, (Function.update own p (⟨held', .idle⟩ : Hold β) q).stage = (own q).stage := by
    intro q
    by_cases hq : q = p
    · subst hq
      rw [Function.update_self, hp]
    · rw [Function.update_of_ne hq]
  refine ⟨fun q b hb => ?_, fun q y hy => ?_, fun q => ?_, fun q r y hq hr => ?_, fun y hy hf => ?_, fun q => ?_,
    fun y b hb => ?_, fun n hn hproc => ?_, fun hb => ?_, h.rings.same rfl⟩
  · by_cases hq : q = p
    · subst hq
      rw [Function.update_self] at hb
      exact hmine b hb
    · rw [Function.update_of_ne hq] at hb
      exact hothers q b hq (h.held q b hb)
  · rw [hstage] at hy
    exact h.range q y hy
  · rw [hstage]
    exact h.nodup q
  · rw [hstage] at hq hr
    exact h.apart q r y hq hr
  · obtain ⟨q, hq⟩ := h.taken y hy hf
    exact ⟨q, by rwa [hstage]⟩
  · by_cases hq : q = p
    · subst hq
      rw [Function.update_self]
      trivial
    · rw [Function.update_of_ne hq]
      exact (h.fits q).congr rfl rfl rfl rfl rfl rfl rfl rfl rfl (List.prefix_refl _)
  · obtain ⟨q, hq⟩ := h.info y b hb
    exact ⟨q, by rwa [hstage]⟩
  · obtain ⟨q, hq⟩ := h.flying n hn hproc
    exact ⟨q, by rwa [hstage]⟩
  · exact h.counted fun q => by
      rw [← hstage]
      exact hb q

omit [DecidableEq ι] in
/-- The device takes a chain or completes one. -/
theorem device (h : Kept d own) {d' : Disk ι β} (hfree : d'.free = d.free) (hlock : d'.lock = d.lock)
    (hdesc : d'.desc = d.desc) (hinfo : d'.info = d.info) (havail : d'.avail = d.avail) (hidx : d'.availIdx = d.availIdx)
    (hbusy : d'.busy = d.busy) (hsubs : d'.subs = d.subs) (hused : d'.usedIdx = d.usedIdx)
    (hcleared : d'.cleared = d.cleared) (hdones : d.dones <+: d'.dones) (hrings : Rings d') : Kept d' own := by
  have hproc : d'.processed = d.processed := by
    obtain ⟨t, ht⟩ := hdones
    rw [Disk.processed, Disk.processed, hcleared, ← ht, List.take_append_of_le_length h.rings.seenDone]
  refine ⟨?_, ?_, h.nodup, h.apart, ?_, fun q => ?_, ?_, ?_, ?_, hrings⟩
  · rw [hlock]
    exact h.held
  · rw [hfree]
    exact h.range
  · rw [hfree]
    exact h.taken
  · exact (h.fits q).congr hdesc hinfo havail hidx hbusy hsubs hused hcleared hproc hdones
  · rw [hinfo]
    exact h.info
  · rw [hsubs, hproc]
    exact h.flying
  · rw [hused, hcleared]
    exact h.counted

omit [DecidableEq ι] in
theorem take (h : Kept d own) : Kept d.take own := by
  have hr := h.rings
  have htook : d.took ≤ d.subs.length := hr.took
  have hfew := h.few
  have hdone := hr.seenDone
  unfold Disk.take
  by_cases hmore : d.seen ≠ d.availIdx
  · rw [if_pos hmore]
    have hlt : d.took < d.subs.length := by
      refine lt_of_le_of_ne htook fun heq => hmore ?_
      rw [hr.seen, hr.availIdx, heq]
    obtain ⟨x, hx⟩ : ∃ x, d.subs[d.took]? = some x := ⟨_, List.getElem?_eq_getElem hlt⟩
    have hhead : d.avail (d.seen % num) = x.1 := by
      rw [hr.seen, uint16_mod]
      exact hr.avail d.took x.1 x.2 (Nat.le_refl _) hx
    have hlen : ∀ y, d.dones.length + (d.pending ++ [y]).length = d.took + 1 := by
      intro y
      rw [List.length_append, List.length_singleton, ← Nat.add_assoc]
      rfl
    refine h.device rfl rfl rfl rfl rfl rfl rfl rfl rfl rfl (List.prefix_refl _)
      ⟨hr.availIdx, ?_, ?_, ?_, fun y hy => ?_, fun n y b hn hs => ?_, hr.usedId, hr.elems, hr.seenDone, hr.cleared⟩
    · show uint16 (d.seen + 1) = uint16 (d.dones.length + (d.pending ++ [_]).length)
      rw [hlen, hr.seen]
      unfold uint16
      omega
    · show d.dones.length + (d.pending ++ [_]).length ≤ _
      rw [hlen]
      exact hlt
    · show (d.dones ++ (d.pending ++ [_]).map Prod.fst).Perm (List.range (d.dones.length + (d.pending ++ [_]).length))
      rw [hlen, List.map_append, ← List.append_assoc, List.range_succ]
      exact hr.numbers.append_right _
    · rcases List.mem_append.mp hy with hy | hy
      · exact hr.heads y hy
      · obtain rfl := List.mem_singleton.mp hy
        refine ⟨x.2, ?_⟩
        rw [hhead]
        exact hx
    · have hn' : d.dones.length + (d.pending ++ [_]).length ≤ n := hn
      rw [hlen] at hn'
      exact hr.avail n y b (by omega) hs
  · rw [if_neg hmore]
    exact h

omit [DecidableEq ι] in
/-- The status byte is that of the request. -/
theorem writeStatus (h : Kept d own) {x : Nat × Nat} (hx : x ∈ d.pending) : d.writeStatus x.2 = d := by
  obtain ⟨b, hb⟩ := h.rings.heads x hx
  have hlt := (List.getElem?_eq_some_iff.mp hb).1
  obtain ⟨p, i, j, k, b', hp⟩ := h.flying x.1 hlt fun hp => h.rings.pending_not_done hx (List.mem_of_mem_take hp)
  have hf := (h.flight hp).1
  obtain ⟨hi, -⟩ : i = x.2 ∧ b' = b := by
    have hsame := hf.sub.symm.trans hb
    simpa using hsame
  have hlast : (d.desc ((d.chain i).getLastD i)).addr = .status i := by
    rw [hf.linked.chain]
    exact hf.addr
  have hsame : ({ d.info i with status := 0 } : Info β) = d.info i := by rw [hf.info]
  rw [← hi, Disk.writeStatus]
  simp only [hlast]
  rw [Disk.setInfo, hsame, Function.update_eq_self]

omit [DecidableEq ι] in
theorem complete (h : Kept d own) (m : Nat) : Kept (d.complete m) own := by
  have hr := h.rings
  have htook : d.dones.length + d.pending.length ≤ d.subs.length := hr.took
  have hfew := h.few
  have hdone := hr.seenDone
  unfold Disk.complete
  cases hm : d.pending[m]? with
  | none => exact h
  | some x =>
    obtain ⟨number, head⟩ := x
    obtain ⟨hlt, hget⟩ := List.getElem?_eq_some_iff.mp hm
    have hmem := List.mem_of_getElem? hm
    obtain ⟨b, hb⟩ := hr.heads _ hmem
    have hstatus : d.writeStatus head = d := h.writeStatus hmem
    have herase : (d.pending.eraseIdx m).length + 1 = d.pending.length := by
      rw [List.length_eraseIdx_of_lt hlt]
      omega
    have hperm : d.pending.Perm ((number, head) :: d.pending.eraseIdx m) := by
      rw [← hget]
      exact (List.getElem_cons_eraseIdx_perm hlt).symm
    have hlen : (d.dones ++ [number]).length + (d.pending.eraseIdx m).length = d.took := by
      rw [List.length_append, List.length_singleton, Disk.took]
      omega
    simp only [hstatus]
    refine h.device rfl rfl rfl rfl rfl rfl rfl rfl rfl rfl (List.prefix_append ..)
      ⟨hr.availIdx, ?_, ?_, ?_, fun y hy => hr.heads y (List.mem_of_mem_eraseIdx hy), fun n y b' hn hs => ?_, ?_,
        fun m' n y b' hm' hn hs => ?_, ?_, fun m' b' hb' => ?_⟩
    · show d.seen = uint16 ((d.dones ++ [number]).length + (d.pending.eraseIdx m).length)
      rw [hlen]
      exact hr.seen
    · show (d.dones ++ [number]).length + (d.pending.eraseIdx m).length ≤ _
      rw [hlen]
      exact hr.took
    · show ((d.dones ++ [number]) ++ (d.pending.eraseIdx m).map Prod.fst).Perm
        (List.range ((d.dones ++ [number]).length + (d.pending.eraseIdx m).length))
      rw [hlen, List.append_assoc]
      exact ((hperm.map Prod.fst).append_left d.dones).symm.trans hr.numbers
    · have hn' : (d.dones ++ [number]).length + (d.pending.eraseIdx m).length ≤ n := hn
      rw [hlen] at hn'
      exact hr.avail n y b' hn' hs
    · show uint16 (d.usedId + 1) = uint16 (d.dones ++ [number]).length
      rw [hr.usedId, List.length_append, List.length_singleton]
      unfold uint16
      omega
    · -- the slot written is none of those that the handler has yet to read
      have hn' : (d.dones ++ [number])[m']? = some n := hn
      show Function.update d.elems (d.usedId % num) head (m' % num) = y
      rw [hr.usedId, uint16_mod]
      by_cases hlt' : m' < d.dones.length
      · rw [List.getElem?_append_left hlt'] at hn'
        have hmm : d.cleared.length ≤ m' := hm'
        have hne : m' % num ≠ d.dones.length % num := by
          unfold num
          omega
        rw [Function.update_of_ne hne]
        exact hr.elems m' n y b' hmm hn' hs
      · have hle := (List.getElem?_eq_some_iff.mp hn').1
        rw [List.length_append, List.length_singleton] at hle
        obtain rfl : m' = d.dones.length := by omega
        obtain rfl : number = n := by simpa using hn'
        rw [Function.update_self]
        have hsame := hb.symm.trans hs
        simp only [Option.some.injEq, Prod.mk.injEq] at hsame
        exact hsame.1
    · show d.cleared.length ≤ (d.dones ++ [number]).length
      rw [List.length_append]
      omega
    · obtain ⟨n, y, hn, hs⟩ := hr.cleared m' b' hb'
      refine ⟨n, y, ?_, hs⟩
      show (d.dones ++ [number])[m']? = some n
      rw [List.getElem?_append_left (List.getElem?_eq_some_iff.mp hn).1]
      exact hn

end Kept

end Sections

end Farron.Virtio
