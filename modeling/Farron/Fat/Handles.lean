import Farron.Fat.Lookup
import Farron.Fat.References

/-! Handles on dirents, while one process runs alone.

A dirent's handles are its references without those that its live entries have. Between calls
(`Settled`) none is missing, no lock is held, and an entry without references has been written back.
Giving a handle up may then give up the parent's, and so on (`run_eput`), but writes nothing: what a
lookup alone has brought to life is clean. -/
namespace Farron
open Resumption
variable {fat : Fat}

/-! ### Handles -/

namespace State

def Live (s : State) (e : Ptr) : Prop := (s.dirents e).Live

/-- The references on `e` that its entries do not have. -/
def handles (s : State) (e : Ptr) : Int := (s.dirents e).ref - s.children e

instance (s : State) : DecidablePred s.Live := fun _ => inferInstanceAs (Decidable (Dirent.Live _))

/-- How many entries are live. -/
def liveCount (s : State) : Nat := (Finset.univ.filter s.Live).card

variable (s : State) (e p : Ptr) (f : Dirent → Dirent)

theorem handles_setDirent : (s.setDirent e f).handles p = s.handles p +
    (if p = e then (f (s.dirents e)).ref - (s.dirents e).ref else 0) +
    (s.dirents e).childOf p - (f (s.dirents e)).childOf p := by
  have hsum : (s.setDirent e f).children p + (s.dirents e).childOf p = s.children p + (f (s.dirents e)).childOf p :=
    children_setDirent s e f p
  unfold handles
  by_cases hp : p = e
  · subst hp
    rw [setDirent_same, if_pos rfl]
    omega
  · rw [setDirent_ne _ _ _ _ hp, if_neg hp]
    omega

theorem live_iff : s.Live e ↔ 0 < (s.dirents e).ref ∧ (s.dirents e).valid ≠ 0 := Iff.rfl

/-- A live entry is one of its parent's references. -/
theorem children_pos {s : State} {x p : Ptr} (h : s.Live x) (hp : (s.dirents x).parent = some p) : 0 < s.children p := by
  have hone : (s.dirents x).childOf p = 1 := Dirent.childOf_same h hp
  have hle := s.childOf_le x p
  omega

theorem exists_child {s : State} {p : Ptr} (h : 0 < s.children p) : ∃ x, s.Live x ∧ (s.dirents x).parent = some p := by
  obtain ⟨x, -, hx⟩ := Finset.exists_ne_zero_of_sum_ne_zero h.ne'
  by_contra hno
  push Not at hno
  exact hx (if_neg fun hlive => hno x hlive.1 hlive.2)

end State

/-! ### Between calls -/

/-- The directories, by first cluster: each has its clusters and its records, and the directories
among these are some of them. -/
structure Dirs (fat : Fat) (disk : Disk) (D : Nat → Option (List Nat × Layout)) : Prop where
  chain : ∀ c l L, D c = some (l, L) → Chain fat disk l ∧ l.head? = some c
  on : ∀ c l L, D c = some (l, L) → L.On fat disk l ∧ L.Ends fat disk l
  closed : ∀ c l L, D c = some (l, L) → ∀ x ∈ L.items, (readEntryInfo x.record.short).attr &&& attrDirectory ≠ 0 →
    x.record.name ≠ [charDot] → x.record.name ≠ [charDot, charDot] → (D (readEntryInfo x.record.short).firstClus).isSome

/-- The state between calls, when each has run alone. -/
structure Settled (fat : Fat) (D : Nat → Option (List Nat × Layout)) (s : State) : Prop where
  dirs : Dirs fat s.disk D
  handles : ∀ e, 0 ≤ s.handles e
  /-- A live entry has a parent that is one. -/
  up : ∀ e, e ≠ .root → s.Live e → ∃ p, (s.dirents e).parent = some p ∧ (s.dirents p).valid ≠ 0
  root : (s.dirents .root).valid ≠ 0 ∧ (s.dirents .root).parent = none
  /-- What has no reference has been written back. -/
  clean : ∀ i, (s.dirents (.entry i)).ref = 0 → (s.dirents (.entry i)).valid = 1 → (s.dirents (.entry i)).dirty = false
  lock : ∀ e, (s.dirents e).lock = none
  cached : ∀ e, (s.dirents e).valid = 1 → (s.dirents e).attr &&& attrDirectory ≠ 0 →
    ∃ l L, D (s.dirents e).firstClus = some (l, L) ∧ Holds (s.dirents e) l

/-- On the way from the state `s₀` between calls: the process has the handles `mine` besides, `lock` says
what is locked, and what was live still is. What is live only now is clean. -/
structure Along (D : Nat → Option (List Nat × Layout)) (s₀ s : State) (mine : List Ptr) (lock : Ptr → Option Nat) : Prop where
  disk : s.disk = s₀.disk
  handles : ∀ e, s.handles e = s₀.handles e + mine.count e
  up : ∀ e, e ≠ .root → s.Live e → ∃ p, (s.dirents e).parent = some p ∧ (s.dirents p).valid ≠ 0
  root : (s.dirents .root).valid ≠ 0 ∧ (s.dirents .root).parent = none
  kept : ∀ e, s₀.Live e → s.Live e ∧ (s.dirents e).parent = (s₀.dirents e).parent
  clean : ∀ i, (s.dirents (.entry i)).ref = 0 → (s.dirents (.entry i)).valid = 1 → (s.dirents (.entry i)).dirty = false
  fresh : ∀ i, s.Live (.entry i) → ¬ s₀.Live (.entry i) →
    (s.dirents (.entry i)).valid = 1 ∧ (s.dirents (.entry i)).dirty = false
  lock : ∀ e, (s.dirents e).lock = lock e
  cached : ∀ e, (s.dirents e).valid = 1 → (s.dirents e).attr &&& attrDirectory ≠ 0 →
    ∃ l L, D (s.dirents e).firstClus = some (l, L) ∧ Holds (s.dirents e) l

section Along
variable {D : Nat → Option (List Nat × Layout)} {s₀ s : State} {mine : List Ptr} {lock : Ptr → Option Nat} {e : Ptr}

theorem Settled.along (h : Settled fat D s) : Along D s s [] fun _ => none :=
  ⟨rfl, fun e => by rw [List.count_nil]; simp, h.up, h.root, fun e he => ⟨he, rfl⟩, h.clean, fun i hl hno => absurd hl hno,
    h.lock, h.cached⟩

namespace Along
variable (h₀ : Settled fat D s₀) (h : Along D s₀ s mine lock)
include h₀ h

omit h₀ in
theorem ref_eq (e : Ptr) : (s.dirents e).ref = s₀.handles e + mine.count e + s.children e := by
  have := h.handles e
  unfold State.handles at this ⊢
  omega

theorem ref_nonneg (e : Ptr) : 0 ≤ (s.dirents e).ref := by
  rw [h.ref_eq]
  have := h₀.handles e
  omega

theorem ref_pos (he : e ∈ mine) : 0 < (s.dirents e).ref := by
  rw [h.ref_eq]
  have := h₀.handles e
  have := List.count_pos_iff.mpr he
  omega

/-- The parent of a live entry has a reference. -/
theorem parent_live {x p : Ptr} (hx : s.Live x) (hne : x ≠ .root) (hp : (s.dirents x).parent = some p) : s.Live p := by
  obtain ⟨q, hq, hvalid⟩ := h.up x hne hx
  obtain rfl : q = p := Option.some.inj (hq.symm.trans hp)
  refine ⟨?_, hvalid⟩
  show 0 < (s.dirents q).ref
  rw [h.ref_eq]
  have := h₀.handles q
  have := State.children_pos hx hp
  omega

omit h₀ in
theorem cached_of {y : Dirent} (hvalid : y.valid = 1 → (s.dirents e).valid = 1) (hattr : y.attr = (s.dirents e).attr)
    (hfirst : y.firstClus = (s.dirents e).firstClus) (hcur : y.curClus = (s.dirents e).curClus)
    (hcnt : y.clusCnt = (s.dirents e).clusCnt) : y.valid = 1 → y.attr &&& attrDirectory ≠ 0 →
    ∃ l L, D y.firstClus = some (l, L) ∧ Holds y l := by
  intro hv ha
  rw [hattr] at ha
  obtain ⟨l, L, hD, hholds⟩ := h.cached e (hvalid hv) ha
  refine ⟨l, L, by rw [hfirst]; exact hD, ?_, ?_⟩
  · rw [hfirst]
    exact hholds.first
  · rw [hcur, hcnt]
    exact hholds.cursor

omit h₀ in
/-- One dirent changes, and the handles with it. -/
theorem set {e : Ptr} {f : Dirent → Dirent} {y : Dirent} (hy : f (s.dirents e) = y) {mine' : List Ptr}
    (hcount : ∀ p, (if p = e then y.ref - (s.dirents e).ref else 0) + (s.dirents e).childOf p - y.childOf p =
      (mine'.count p - mine.count p : Int))
    (hvalid : ((s.dirents e).valid ≠ 0 → y.valid ≠ 0) ∨
      e ≠ .root ∧ ¬ y.Live ∧ ∀ x, s.Live x → (s.dirents x).parent ≠ some e)
    (hroot : e = .root → y.parent = none)
    (hup : e ≠ .root → y.Live → ∃ p, y.parent = some p ∧ (s.dirents p).valid ≠ 0)
    (hkept : s₀.Live e → y.Live ∧ y.parent = (s.dirents e).parent)
    (hclean : e ≠ .root → y.ref = 0 → y.valid = 1 → y.dirty = false)
    (hfresh : e ≠ .root → y.Live → ¬ s₀.Live e → y.valid = 1 ∧ y.dirty = false)
    (hcached : y.valid = 1 → y.attr &&& attrDirectory ≠ 0 → ∃ l L, D y.firstClus = some (l, L) ∧ Holds y l) :
    Along D s₀ (s.setDirent e f) mine' (Function.update lock e y.lock) := by
  subst hy
  have hsame : (s.setDirent e f).dirents e = f (s.dirents e) := State.setDirent_same ..
  have hne : ∀ {x}, x ≠ e → (s.setDirent e f).dirents x = s.dirents x := fun hx => State.setDirent_ne _ _ _ _ hx
  have hlive : ∀ {x}, x ≠ e → ((s.setDirent e f).Live x ↔ s.Live x) := by
    intro x hx
    rw [State.live_iff, State.live_iff, hne hx]
  have hvalid' : ∀ x, (x = e → (s.dirents e).valid ≠ 0 → (f (s.dirents e)).valid ≠ 0) → (s.dirents x).valid ≠ 0 →
      ((s.setDirent e f).dirents x).valid ≠ 0 := by
    intro x hv hx
    by_cases hxe : x = e
    · subst hxe
      rw [hsame]
      exact hv rfl hx
    · rwa [hne hxe]
  constructor
  · exact h.disk
  · intro p
    have := hcount p
    rw [State.handles_setDirent, h.handles]
    omega
  · intro x hx hl
    by_cases hxe : x = e
    · subst hxe
      have hl' : (f (s.dirents x)).Live := by
        have : ((s.setDirent x f).dirents x).Live := hl
        rwa [hsame] at this
      obtain ⟨p, hp, hpv⟩ := hup hx hl'
      refine ⟨p, by rw [hsame]; exact hp, hvalid' p (fun _ => ?_) hpv⟩
      exact hvalid.resolve_right fun hno => hno.2.1 hl'
    · obtain ⟨p, hp, hpv⟩ := h.up x hx ((hlive hxe).mp hl)
      refine ⟨p, by rw [hne hxe]; exact hp, hvalid' p (fun hpe => ?_) hpv⟩
      subst hpe
      exact hvalid.resolve_right fun hno => hno.2.2 x ((hlive hxe).mp hl) hp
  · refine ⟨hvalid' _ (fun hr => hvalid.resolve_right fun hno => hno.1 hr.symm) h.root.1, ?_⟩
    by_cases hr : Ptr.root = e
    · rw [hr, hsame]
      exact hroot hr.symm
    · rw [hne hr]
      exact h.root.2
  · intro x hx
    obtain ⟨hl, hp⟩ := h.kept x hx
    by_cases hxe : x = e
    · subst hxe
      rw [State.Live, hsame]
      exact ⟨(hkept hx).1, (hkept hx).2.trans hp⟩
    · rw [hlive hxe, hne hxe]
      exact ⟨hl, hp⟩
  · intro i
    by_cases hi : Ptr.entry i = e
    · rw [hi, hsame]
      exact hclean (by rw [← hi]; exact Ptr.noConfusion)
    · rw [hne hi]
      exact h.clean i
  · intro i hl hno
    by_cases hi : Ptr.entry i = e
    · rw [hi] at hl hno ⊢
      have hl' : (f (s.dirents e)).Live := by
        have : ((s.setDirent e f).dirents e).Live := hl
        rwa [hsame] at this
      rw [hsame]
      exact hfresh (by rw [← hi]; exact Ptr.noConfusion) hl' hno
    · rw [hne hi]
      exact h.fresh i ((hlive hi).mp hl) hno
  · intro x
    by_cases hxe : x = e
    · subst hxe
      rw [hsame, Function.update_self]
    · rw [hne hxe, Function.update_of_ne hxe]
      exact h.lock x
  · intro x
    by_cases hxe : x = e
    · subst hxe
      rw [hsame]
      exact hcached
    · rw [hne hxe]
      exact h.cached x

omit h₀ in
/-- A lock or a cursor changes nothing that counts. -/
theorem aside {e : Ptr} {f : Dirent → Dirent} {y : Dirent} (hy : f (s.dirents e) = y) (href : y.ref = (s.dirents e).ref)
    (hvalid : y.valid = (s.dirents e).valid) (hparent : y.parent = (s.dirents e).parent) (hdirty : y.dirty = (s.dirents e).dirty)
    (hcached : y.valid = 1 → y.attr &&& attrDirectory ≠ 0 → ∃ l L, D y.firstClus = some (l, L) ∧ Holds y l) :
    Along D s₀ (s.setDirent e f) mine (Function.update lock e y.lock) := by
  have hlive : y.Live ↔ s.Live e := by
    show 0 < y.ref ∧ y.valid ≠ 0 ↔ 0 < (s.dirents e).ref ∧ (s.dirents e).valid ≠ 0
    rw [href, hvalid]
  have hchild : ∀ p, y.childOf p = (s.dirents e).childOf p :=
    fun p => Dirent.childOf_congr hlive (fun _ => hparent) p
  refine h.set hy (fun p => ?_) (.inl (by rw [hvalid]; exact id)) (fun hr => ?_) (fun hr hl => ?_) (fun hl => ?_) (fun hr => ?_)
    (fun hr hl hno => ?_) hcached
  · rw [hchild, href]
    split_ifs <;> omega
  · subst hr
    exact hparent.trans h.root.2
  · rw [hparent]
    exact h.up e hr (hlive.mp hl)
  · exact ⟨hlive.mpr (h.kept e hl).1, hparent⟩
  · cases e with
    | root => exact absurd rfl hr
    | entry i =>
      rw [href, hvalid, hdirty]
      exact h.clean i
  · cases e with
    | root => exact absurd rfl hr
    | entry i =>
      rw [hvalid, hdirty]
      exact h.fresh i (hlive.mp hl) hno

omit h₀ in
/-- Neither do the list and the history. -/
theorem history (lru : List Slot) (retired : List Nat) : Along D s₀ { s with lru, retired } mine lock :=
  ⟨h.disk, h.handles, h.up, h.root, h.kept, h.clean, h.fresh, h.lock, h.cached⟩

omit h₀ in
theorem keep_lock (e : Ptr) : Function.update lock e (s.dirents e).lock = lock := by
  rw [h.lock, Function.update_eq_self]

/-- What the process has one handle less on is live still, if it was before. -/
theorem still_pos (rest : List Ptr) (he : s₀.Live e) : 0 < s₀.handles e + rest.count e + s.children e := by
  have hnonneg := h₀.handles e
  have href : (0 : Int) < (s₀.dirents e).ref := he.1
  by_cases hzero : s₀.handles e = 0
  · have hpos : 0 < s₀.children e := by
      unfold State.handles at hzero
      omega
    obtain ⟨x, hx, hp⟩ := State.exists_child hpos
    obtain ⟨hlive, hparent⟩ := h.kept x hx
    have := State.children_pos hlive (hparent.trans hp)
    omega
  · omega

/-- A reference more on what has one, or on the root. -/
theorem grab (he : 0 < (s.dirents e).ref ∨ e = .root) : Along D s₀ (s.addRef e 1) (e :: mine) lock := by
  have hnonneg := h.ref_nonneg h₀ e
  have hchild : ∀ p, ({ s.dirents e with ref := (s.dirents e).ref + 1 } : Dirent).childOf p = (s.dirents e).childOf p := by
    intro p
    rcases he with he | rfl
    · apply Dirent.childOf_congr
      · show 0 < (s.dirents e).ref + 1 ∧ (s.dirents e).valid ≠ 0 ↔ 0 < (s.dirents e).ref ∧ (s.dirents e).valid ≠ 0
        exact ⟨fun hl => ⟨he, hl.2⟩, fun hl => ⟨by omega, hl.2⟩⟩
      · exact fun _ => rfl
    · have hno : (s.dirents .root).parent ≠ some p := by
        rw [h.root.2]
        exact fun hp => by cases hp
      exact (if_neg fun hp => hno hp.2).trans (if_neg fun hp => hno hp.2).symm
  have hset : Along D s₀ (s.addRef e 1) (e :: mine) (Function.update lock e (s.dirents e).lock) := by
    refine h.set rfl (fun p => ?_) (.inl id) (fun hr => ?_) (fun hr hl => ?_) (fun hl => ?_) (fun hr hz => ?_) (fun hr hl hno => ?_)
      (h.cached_of id rfl rfl rfl rfl)
    · rw [hchild, List.count_cons]
      by_cases hp : p = e
      · subst hp
        simp
      · simp [hp, Ne.symm hp]
    · subst hr
      exact h.root.2
    · exact h.up e hr ⟨he.resolve_right hr, hl.2⟩
    · exact ⟨⟨by show 0 < (s.dirents e).ref + 1; omega, (h.kept e hl).1.2⟩, rfl⟩
    · have hz : (s.dirents e).ref + 1 = 0 := hz
      omega
    · cases e with
      | root => exact absurd rfl hr
      | entry i => exact h.fresh i ⟨he.resolve_right hr, hl.2⟩ hno
  rwa [h.keep_lock e] at hset

end Along

/-- A handle is given up that is not the last reference. -/
theorem Along.giveUp (h₀ : Settled fat D s₀) (h : Along D s₀ s (e :: mine) lock) (hlast : s.lastRef e = false) :
    Along D s₀ (s.addRef e (-1)) mine lock := by
  have hpos := h.ref_pos h₀ List.mem_cons_self
  have hlast' : e = .root ∨ (s.dirents e).valid = 0 ∨ 1 < (s.dirents e).ref := by
    by_contra hno
    push Not at hno
    have : s.lastRef e = true := by
      simp only [State.lastRef, Bool.and_eq_true, bne_iff_ne, beq_iff_eq]
      exact ⟨⟨hno.1, hno.2.1⟩, by omega⟩
    rw [hlast] at this
    cases this
  have hlive : e ≠ .root → (({ s.dirents e with ref := (s.dirents e).ref + -1 } : Dirent).Live ↔ s.Live e) := by
    intro hr
    show 0 < (s.dirents e).ref + -1 ∧ (s.dirents e).valid ≠ 0 ↔ 0 < (s.dirents e).ref ∧ (s.dirents e).valid ≠ 0
    rcases hlast'.resolve_left hr with hv | hr
    · exact ⟨fun hl => absurd hv hl.2, fun hl => absurd hv hl.2⟩
    · exact ⟨fun hl => ⟨hpos, hl.2⟩, fun hl => ⟨by omega, hl.2⟩⟩
  have hchild : ∀ p, ({ s.dirents e with ref := (s.dirents e).ref + -1 } : Dirent).childOf p = (s.dirents e).childOf p := by
    intro p
    by_cases hr : e = .root
    · subst hr
      have hno : (s.dirents .root).parent ≠ some p := by
        rw [h.root.2]
        exact fun hp => by cases hp
      exact (if_neg fun hp => hno hp.2).trans (if_neg fun hp => hno hp.2).symm
    · apply Dirent.childOf_congr (hlive hr)
      exact fun _ => rfl
  have hset : Along D s₀ (s.addRef e (-1)) mine (Function.update lock e (s.dirents e).lock) := by
    refine h.set rfl (fun p => ?_) (.inl id) (fun hr => ?_) (fun hr hl => ?_) (fun hl => ?_) (fun hr hz hv => ?_) (fun hr hl hno => ?_)
      (h.cached_of id rfl rfl rfl rfl)
    · rw [hchild, List.count_cons]
      by_cases hp : p = e
      · subst hp
        simp
      · simp [hp, Ne.symm hp]
    · subst hr
      exact h.root.2
    · exact h.up e hr ((hlive hr).mp hl)
    · have hcount := h.ref_eq e
      have hstill := h.still_pos h₀ mine hl
      rw [List.count_cons_self] at hcount
      exact ⟨⟨by show 0 < (s.dirents e).ref + -1; omega, (h.kept e hl).1.2⟩, rfl⟩
    · rcases hlast'.resolve_left hr with hv' | hr'
      · exact absurd (hv'.symm.trans hv) (by decide)
      · have hz : (s.dirents e).ref + -1 = 0 := hz
        omega
    · cases e with
      | root => exact absurd rfl hr
      | entry i => exact h.fresh i ((hlive hr).mp hl) hno
  rwa [h.keep_lock e] at hset

/-- What only the process holds, it has brought to life, and nothing is in it. -/
theorem Along.last (h₀ : Settled fat D s₀) (h : Along D s₀ s (e :: mine) lock) (hlast : s.lastRef e = true) :
    ∃ i p, e = .entry i ∧ (s.dirents e).ref = 1 ∧ (s.dirents e).valid = 1 ∧ (s.dirents e).dirty = false ∧
      (s.dirents e).parent = some p ∧ p ≠ e ∧ s.Live p ∧ ¬ s₀.Live e := by
  obtain ⟨⟨hroot, hvalid⟩, href⟩ : (e ≠ .root ∧ (s.dirents e).valid ≠ 0) ∧ (s.dirents e).ref = 1 := by
    simpa [State.lastRef] using hlast
  have hlive : s.Live e := ⟨by show 0 < (s.dirents e).ref; omega, hvalid⟩
  have hcount := h.ref_eq e
  rw [List.count_cons_self] at hcount
  have hdead : ¬ s₀.Live e := by
    intro hl
    have := h.still_pos h₀ mine hl
    omega
  obtain ⟨p, hp, -⟩ := h.up e hroot hlive
  have hpe : p ≠ e := by
    rintro rfl
    have := State.children_pos hlive hp
    have := h₀.handles p
    omega
  cases e with
  | root => exact absurd rfl hroot
  | entry i =>
    obtain ⟨hv, hdirty⟩ := h.fresh i hlive hdead
    exact ⟨i, p, rfl, href, hv, hdirty, hp, hpe, h.parent_live h₀ hlive hroot hp, hdead⟩

/-- It is given up, and its handle on the parent with it. -/
theorem Along.dropLast (h₀ : Settled fat D s₀) (h : Along D s₀ s (e :: mine) lock) (hlast : s.lastRef e = true) {p : Ptr}
    (hp : (s.dirents e).parent = some p) :
    Along D s₀ (s.addRef e (-1)) (p :: mine) lock ∧ (s.addRef e (-1)).liveCount < s.liveCount := by
  obtain ⟨i, q, hi, href, hvalid, hdirty, hq, hqe, -, hdead⟩ := h.last h₀ hlast
  obtain rfl : q = p := Option.some.inj (hq.symm.trans hp)
  have hlive : s.Live e := ⟨by show 0 < (s.dirents e).ref; omega, by show (s.dirents e).valid ≠ 0; omega⟩
  have hgone : ¬ ({ s.dirents e with ref := (s.dirents e).ref + -1 } : Dirent).Live := by
    intro hl
    have : 0 < (s.dirents e).ref + -1 := hl.1
    omega
  constructor
  · have hset : Along D s₀ (s.addRef e (-1)) (q :: mine) (Function.update lock e (s.dirents e).lock) := by
      refine h.set rfl (fun x => ?_) (.inl id) (fun hr => ?_) (fun _ hl => absurd hl hgone) (fun hl => absurd hl hdead)
        (fun _ _ _ => hdirty) (fun _ hl => absurd hl hgone) (h.cached_of id rfl rfl rfl rfl)
      · rw [Dirent.childOf_dead hgone, List.count_cons, List.count_cons]
        by_cases hx : x = q
        · subst hx
          rw [Dirent.childOf_same hlive hq]
          simp [hqe, Ne.symm hqe]
        · rw [Dirent.childOf_other (x := s.dirents e) hq hx]
          by_cases hxe : x = e
          · subst hxe
            simp [hqe]
          · simp [hxe, Ne.symm hx, Ne.symm hxe]
      · rw [hi] at hr
        cases hr
    rwa [h.keep_lock e] at hset
  · apply Finset.card_lt_card
    rw [Finset.ssubset_iff_of_subset]
    · refine ⟨e, Finset.mem_filter.mpr ⟨Finset.mem_univ _, hlive⟩, fun hmem => hgone ?_⟩
      have hl : ((s.addRef e (-1)).dirents e).Live := (Finset.mem_filter.mp hmem).2
      rwa [State.addRef, State.setDirent_same] at hl
    · intro x hx
      have hl : ((s.addRef e (-1)).dirents x).Live := (Finset.mem_filter.mp hx).2
      refine Finset.mem_filter.mpr ⟨Finset.mem_univ _, ?_⟩
      by_cases hxe : x = e
      · subst hxe
        exact hlive
      · rw [State.addRef, State.setDirent_ne _ _ _ _ hxe] at hl
        exact hl

/-- The write-back has nothing to write. -/
theorem run_eputWrite {pid : Nat} {p : Ptr} (hvalid : (s.dirents e).valid = 1) (hdirty : (s.dirents e).dirty = false)
    (hp : (s.dirents e).parent = some p) (hne : p ≠ e) (href : 0 < (s.dirents p).ref) (hlock : (s.dirents p).lock = none) :
    (eputWrite fat pid e).run s = .done () (s.setDirent e fun d => { d with lock := none }) := by
  obtain ⟨s₁, hs₁⟩ : ∃ s₁, s.setDirent p (fun d => { d with lock := some pid }) = s₁ := ⟨_, rfl⟩
  have hlocked : (elock pid (some p)).run s = .done () s₁ := by
    rw [run_elock, if_neg (by omega), if_pos hlock, hs₁]
  have hpd : s₁.dirents p = { s.dirents p with lock := some pid } := by
    rw [← hs₁, State.setDirent_same]
  have hed : s₁.dirents e = s.dirents e := by
    rw [← hs₁, State.setDirent_ne _ _ _ _ hne.symm]
  have hupdate : (eupdate fat e).run s₁ = .done () s₁ := by
    rw [eupdate, Prog.run_bind_done (run_dirent ..), if_pos (.inl (by rw [hed, hdirty]; decide))]
    rfl
  have hback : s₁.setDirent p (fun d => { d with lock := none }) = s := by
    rw [← hs₁, State.setDirent_setDirent, State.setDirent_eq_self]
    show ({ s.dirents p with lock := none } : Dirent) = s.dirents p
    rw [← hlock]
  have hunlock : (eunlock pid (some p)).run s₁ = .done () s := by
    rw [run_eunlock s₁ (by rw [hpd]) (by rw [hpd]; show ¬ (s.dirents p).ref < 1; omega), hback]
  rw [eputWrite, Prog.run_bind_done (run_dirent ..), if_neg (by omega), hp, Prog.run_bind_done hlocked,
    Prog.run_bind_done hupdate]
  show (eunlock pid (some p) >>= fun _ => releasesleep e).run s₁ = _
  rw [Prog.run_bind_done hunlock]
  exact run_assign ..

/-- **Giving a handle up.** -/
theorem run_eput (h₀ : Settled fat D s₀) (pid n : Nat) (h : Along D s₀ s (e :: mine) fun _ => none) (hn : s.liveCount < n) :
    ∃ s', (eput fat pid n (some e)).run s = .done () s' ∧ (Along D s₀ s' mine fun _ => none) ∧
      ∀ x, (s'.dirents x).valid = (s.dirents x).valid := by
  have hkeep : ∀ (s : State) e k x, ((s.addRef e k).dirents x).valid = (s.dirents x).valid := by
    intro s e k x
    by_cases hx : x = e
    · subst hx
      rw [State.addRef, State.setDirent_same]
    · rw [State.addRef, State.setDirent_ne _ _ _ _ hx]
  induction n generalizing s e with
  | zero => omega
  | succ n ih =>
    cases hlast : s.lastRef e with
    | false =>
      refine ⟨s.addRef e (-1), ?_, h.giveUp h₀ hlast, hkeep s e (-1)⟩
      have henter : s.eputEnter pid e = s.addRef e (-1) := by
        unfold State.eputEnter
        rw [hlast]
        rfl
      rw [eput, Prog.run_act_some, hlast, henter]
      rfl
    | true =>
      obtain ⟨i, p, rfl, href, hvalid, hdirty, hp, hpe, hplive, -⟩ := h.last h₀ hlast
      obtain ⟨s₁, hs₁⟩ : ∃ s₁, (s.setDirent (.entry i) fun d => { d with lock := some pid }).toFront i = s₁ := ⟨_, rfl⟩
      have hd : s₁.dirents (.entry i) = { s.dirents (.entry i) with lock := some pid } := by
        subst hs₁
        exact s.setDirent_same (.entry i) fun d => { d with lock := some pid }
      have hpd : s₁.dirents p = s.dirents p := by
        subst hs₁
        exact s.setDirent_ne (.entry i) p (fun d => { d with lock := some pid }) hpe
      have hback : s₁.setDirent (.entry i) (fun d => { d with lock := none }) = s.toFront i := by
        subst hs₁
        show ((s.toFront i).setDirent (.entry i) fun d => { d with lock := some pid }).setDirent (.entry i) _ = _
        rw [State.setDirent_setDirent, State.setDirent_eq_self]
        show ({ s.dirents (.entry i) with lock := none } : Dirent) = s.dirents (.entry i)
        rw [← h.lock (.entry i)]
      have hwrite : (eputWrite fat pid (.entry i)).run s₁ = .done () (s.toFront i) := by
        rw [run_eputWrite (by rw [hd]; exact hvalid) (by rw [hd]; exact hdirty) (by rw [hd]; exact hp) hpe
          (by rw [hpd]; exact hplive.1) (by rw [hpd]; exact h.lock p), hback]
      have hfront : Along D s₀ (s.toFront i) (.entry i :: mine) fun _ => none := h.history _ s.retired
      obtain ⟨hdrop, hless⟩ := hfront.dropLast h₀ hlast hp
      obtain ⟨s', hrun, hend, hvalid'⟩ := ih hdrop (by have : (s.toFront i).liveCount = s.liveCount := rfl; omega)
      refine ⟨s', ?_, hend, fun x => (hvalid' x).trans (hkeep (s.toFront i) (.entry i) (-1) x)⟩
      have henter : s.eputEnter pid (.entry i) = s₁ := by
        unfold State.eputEnter
        rw [hlast, if_pos rfl, if_pos (h.lock _), ← hs₁]
      have hzero : (((s.toFront i).addRef (.entry i) (-1)).dirents (.entry i)).ref = 0 := by
        rw [State.addRef, State.setDirent_same]
        show (s.dirents (.entry i)).ref + -1 = 0
        omega
      have hread : (eputDrop (.entry i)).run (s.toFront i) = .done true ((s.toFront i).addRef (.entry i) (-1)) := by
        show Outcome.done (_ == 0) _ = _
        rw [hzero]
        rfl
      rw [eput, Prog.run_act_some, hlast, if_pos rfl, if_neg (not_not_intro (h.lock _)), henter, Prog.run_bind_done hwrite,
        Prog.run_bind_done (run_dirent ..)]
      show (eputDrop (.entry i) >>= fun b => if b = true then
        eput fat pid n (s.dirents (.entry i)).parent else return).run (s.toFront i) = _
      rw [hp, Prog.run_bind_done hread, if_pos rfl]
      exact hrun

end Along
end Farron
