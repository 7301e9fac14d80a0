import Farron.Fat.Lookup
import Farron.File.Stat

/-! The offset of a directory that many calls read.

It is at one report of the directory after the other (`place`). The three parts of the invariant of
`Farron.File.Listing` are here, each over what the calls have of it, by process: the lock
(`Locks`), the offset (`Turn`) and the records (`Given`). -/
namespace Farron.Stat
open Resumption Strings

/-! ### Where the offset can be -/

/-- Where the reports lie one behind the other, each is where the one before it ends. -/
theorem follows_next {k e p : Nat} {rs : List (Nat × Next)} {r : Nat × Next} (h : Follows k rs e) (hr : rs[p]? = some r) :
    r.1 + r.2.count = (rs[p + 1]?.map Prod.fst).getD e := by
  induction rs generalizing k p with
  | nil => cases hr
  | cons x rs ih =>
    cases p with
    | zero =>
      cases hr
      rw [h.1, List.getElem?_cons_succ]
      cases rs with
      | nil => exact h.2
      | cons y rs => exact h.2.1.symm
    | succ p => exact ih h.2 hr

theorem follows_le {k e : Nat} {rs : List (Nat × Next)} {r : Nat × Next} (h : Follows k rs e) (hr : r ∈ rs) :
    k ≤ r.1 ∧ r.1 + r.2.count ≤ e := by
  induction rs generalizing k with
  | nil => cases hr
  | cons x rs ih =>
    obtain ⟨hx, hrest⟩ := h
    rcases List.mem_cons.mp hr with rfl | hr
    · exact ⟨hx.ge, hx ▸ hrest.le⟩
    · obtain ⟨hlow, hhigh⟩ := ih hrest hr
      exact ⟨by omega, hhigh⟩

theorem follows_nodup {k e : Nat} {rs : List (Nat × Next)} (h : Follows k rs e) (hpos : ∀ r ∈ rs, 0 < r.2.count) :
    rs.Nodup := by
  induction rs generalizing k with
  | nil => exact List.nodup_nil
  | cons x rs ih =>
    obtain ⟨hx, hrest⟩ := h
    rw [List.nodup_cons]
    refine ⟨fun hmem => ?_, ih hrest fun r hr => hpos r (List.mem_cons_of_mem _ hr)⟩
    have hlow := (follows_le hrest hmem).1
    have := hpos x List.mem_cons_self
    omega

variable {L : Layout}

/-- The slot that report number `p` is at, or the end. -/
def place (L : Layout) (p : Nat) : Nat := ((reports 0 L.items)[p]?.map Prod.fst).getD (Layout.used L.items).length

/-- What `enext` reports there. -/
def reportAt (L : Layout) (p total : Nat) : Next :=
  match (reports 0 L.items)[p]? with
  | some r => r.2
  | none => ⟨-1, total, [], none⟩

/-- The records of the directory, each with the number of its first slot. -/
def records (L : Layout) : List (Nat × Next) := (placed 0 L.items).map fun x => (x.1, x.2.report)

theorem follows_reports (L : Layout) : Follows 0 (reports 0 L.items) (Layout.used L.items).length := by
  have h := reports_follow 0 L.items
  rwa [Nat.zero_add] at h

theorem place_next {p : Nat} {r : Nat × Next} (hr : (reports 0 L.items)[p]? = some r) :
    place L p + r.2.count = place L (p + 1) := by
  have hp : place L p = r.1 := by
    unfold place
    rw [hr]
    rfl
  rw [hp]
  exact follows_next (follows_reports L) hr

theorem place_zero (L : Layout) : place L 0 = 0 := by
  have h := follows_reports L
  unfold place
  cases hr : reports 0 L.items with
  | nil =>
    rw [hr] at h
    exact h.symm
  | cons r rs =>
    rw [hr] at h
    exact h.1

theorem place_le (L : Layout) (p : Nat) : place L p ≤ (Layout.used L.items).length := by
  unfold place
  cases hr : (reports 0 L.items)[p]? with
  | none => exact Nat.le_refl _
  | some r =>
    have := (follows_le (follows_reports L) (List.mem_of_getElem? hr)).2
    exact (Nat.le_add_right _ _).trans this

theorem reports_count {k : Nat} {items : List Item} {r : Nat × Next} (hr : r ∈ reports k items) : 0 < r.2.count := by
  induction items generalizing k with
  | nil => cases hr
  | cons x items ih =>
    rcases List.mem_append.mp hr with hx | hrest
    · rcases List.mem_append.mp hx with hm | hm
      · split_ifs at hm with hgap
        · cases hm
        · obtain rfl := List.mem_singleton.mp hm
          exact List.length_pos_iff.mpr hgap
      · obtain rfl := List.mem_singleton.mp hm
        exact Nat.succ_pos _
    · exact ih hrest

/-- What is reported is a gap or a record. -/
theorem mem_reports {k : Nat} {items : List Item} {r : Nat × Next} :
    r ∈ reports k items ∧ r.2.type ≠ 0 ↔ r ∈ (placed k items).map fun x => (x.1, x.2.report) := by
  induction items generalizing k with
  | nil => exact ⟨fun h => (by cases h.1), fun h => (by cases h)⟩
  | cons x items ih =>
    have hrecord : x.record.report.type ≠ 0 := by
      show (1 : Int) ≠ 0
      decide
    rw [reports, placed, List.map_cons, List.mem_cons, List.mem_append, ← ih, Item.reports, List.mem_append]
    constructor
    · rintro ⟨(hm | hm) | hrest, htype⟩
      · split_ifs at hm
        · cases hm
        · obtain rfl := List.mem_singleton.mp hm
          exact absurd rfl htype
      · exact .inl (List.mem_singleton.mp hm)
      · exact .inr ⟨hrest, htype⟩
    · rintro (rfl | ⟨hrest, htype⟩)
      · exact ⟨.inl (.inr (List.mem_singleton_self _)), hrecord⟩
      · exact ⟨.inr hrest, htype⟩

section Enext
variable {fat : Fat} {fs : State} {ep : Ptr} {l : List Nat} (w : fat.Wf) (hon : L.On fat fs.disk l) (hends : L.Ends fat fs.disk l)
include w hon hends

/-- `enext` reports what is at the place. -/
theorem run_enext_place (h : DirAt fat fs ep l) (p total : Nat) : ∃ c j, l[j]? = some c ∧
    (enext fat ep 0 (recordSz * place L p) total).run fs = .done (reportAt L p total) (fs.setCursor ep c j) := by
  unfold place reportAt
  cases hr : (reports 0 L.items)[p]? with
  | some r => exact L.reportsAt w hon hends ep (List.mem_of_getElem? hr) fs total h rfl
  | none => exact L.endAt w hon hends ep fs total h rfl

omit w hon in
/-- An offset is a 32-bit word. -/
theorem u32_place (p : Nat) {r : Nat × Next} (hr : (reports 0 L.items)[p]? = some r) :
    u32 (recordSz * place L p + recordSz * r.2.count) = recordSz * place L (p + 1) := by
  have hle := place_le L (p + 1)
  have hlt := hends.1
  rw [← Nat.mul_add, place_next hr]
  apply u32_of_lt
  unfold recordSz at hlt ⊢
  omega

end Enext

/-! ### The lock and the directory -/

/-- Who has the lock knows the file system; while nobody has it the dirent's cursor is on its chain. -/
structure Locks (fat : Fat) (ep : Ptr) (l : List Nat) (disk : Disk) (fs : State) (own : Nat → Option State) : Prop where
  disk : fs.disk = disk
  attr : (fs.dirents ep).attr &&& attrDirectory ≠ 0
  ref : 1 ≤ (fs.dirents ep).ref
  free : (fs.dirents ep).lock = none → DirAt fat fs ep l
  held : ∀ i x, own i = some x → fs = x ∧ (fs.dirents ep).lock = some i

namespace Locks
variable {fat : Fat} {ep : Ptr} {l : List Nat} {disk : Disk} {fs : State} {own : Nat → Option State} {i : Nat}

theorem dirAt_lock (h : DirAt fat fs ep l) (o : Option Nat) : DirAt fat (fs.setDirent ep fun d => { d with lock := o }) ep l where
  attr := by
    rw [State.setDirent_same]
    exact h.attr
  valid := by
    rw [State.setDirent_same]
    exact h.valid
  chain := h.chain
  holds := by
    rw [State.setDirent_same]
    exact ⟨h.holds.first, h.holds.cursor⟩
  nonempty := h.nonempty

theorem acquire (h : Locks fat ep l disk fs own) (hlock : (fs.dirents ep).lock = none) (i : Nat) :
    Locks fat ep l disk (fs.setDirent ep fun d => { d with lock := some i })
      (Function.update own i (some (fs.setDirent ep fun d => { d with lock := some i }))) where
  disk := h.disk
  attr := by
    rw [State.setDirent_same]
    exact h.attr
  ref := by
    rw [State.setDirent_same]
    exact h.ref
  free := by
    intro hfree
    rw [State.setDirent_same] at hfree
    cases hfree
  held := by
    intro j x hj
    by_cases hji : j = i
    · subst hji
      rw [Function.update_self] at hj
      cases hj
      exact ⟨rfl, by rw [State.setDirent_same]⟩
    · rw [Function.update_of_ne hji] at hj
      have := (h.held j x hj).2
      rw [hlock] at this
      cases this

/-- Nobody else knows the file system. -/
theorem own_eq (h : Locks fat ep l disk fs own) {x y : State} {j : Nat} (hi : own i = some x) (hj : own j = some y) : j = i := by
  have hi' := (h.held i x hi).2
  rw [(h.held j y hj).2] at hi'
  exact Option.some.inj hi'

theorem move (h : Locks fat ep l disk fs own) {x : State} (hi : own i = some x) (c k : Nat) :
    Locks fat ep l disk (x.setCursor ep c k) (Function.update own i (some (x.setCursor ep c k))) := by
  obtain ⟨rfl, hlock⟩ := h.held i x hi
  refine ⟨h.disk, ?_, ?_, fun hfree => ?_, fun j y hj => ?_⟩
  · rw [State.setCursor_same]
    exact h.attr
  · rw [State.setCursor_same]
    exact h.ref
  · rw [State.setCursor_same] at hfree
    cases hlock.symm.trans hfree
  · by_cases hji : j = i
    · subst hji
      rw [Function.update_self] at hj
      cases hj
      exact ⟨rfl, by rw [State.setCursor_same]; exact hlock⟩
    · rw [Function.update_of_ne hji] at hj
      exact absurd (h.own_eq hi hj) hji

theorem release (h : Locks fat ep l disk fs own) {x : State} (hi : own i = some x) (hdir : DirAt fat x ep l) :
    Locks fat ep l disk (fs.setDirent ep fun d => { d with lock := none }) (Function.update own i none) := by
  obtain ⟨rfl, hlock⟩ := h.held i x hi
  refine ⟨h.disk, ?_, ?_, fun _ => dirAt_lock hdir none, fun j y hj => ?_⟩
  · rw [State.setDirent_same]
    exact h.attr
  · rw [State.setDirent_same]
    exact h.ref
  · by_cases hji : j = i
    · subst hji
      rw [Function.update_self] at hj
      cases hj
    · rw [Function.update_of_ne hji] at hj
      exact absurd (h.own_eq hi hj) hji

end Locks

/-! ### The offset -/

/-- The offset is behind `p` reports; one call at most knows it, and who was told of the end is right. -/
structure Turn (L : Layout) (off p : Nat) (at? : Nat → Option Nat) (behind : Nat → Bool) : Prop where
  off : off = recordSz * place L p
  le : p ≤ (reports 0 L.items).length
  here : ∀ i q, at? i = some q → q = p
  alone : ∀ i j, at? i ≠ none → at? j ≠ none → j = i
  behind : ∀ i, behind i = true → (reports 0 L.items)[p]? = none

namespace Turn
variable {off p : Nat} {at? : Nat → Option Nat} {behind : Nat → Bool} {i : Nat}

/-- Where no call knows the offset, one may look at it. -/
theorem look (h : Turn L off p at? behind) (hother : ∀ j, j ≠ i → at? j = none) :
    Turn L off p (Function.update at? i (some p)) behind where
  off := h.off
  le := h.le
  here := by
    intro j q hj
    by_cases hji : j = i
    · subst hji
      rw [Function.update_self] at hj
      exact (Option.some.inj hj).symm
    · rw [Function.update_of_ne hji] at hj
      exact h.here j q hj
  alone := by
    have heq : ∀ j, Function.update at? i (some p) j ≠ none → j = i := by
      intro j hj
      by_contra hji
      rw [Function.update_of_ne hji] at hj
      exact hj (hother j hji)
    intro j k hj hk
    rw [heq j hj, heq k hk]
  behind := h.behind

/-- The call that knows the offset moves it behind the next report. -/
theorem next (h : Turn L off p at? behind) (hi : at? i = some p) {r : Nat × Next} (hr : (reports 0 L.items)[p]? = some r)
    {off' : Nat} (hoff : off' = recordSz * place L (p + 1)) {x : Option Nat} (hx : ∀ q, x = some q → q = p + 1) :
    Turn L off' (p + 1) (Function.update at? i x) behind where
  off := hoff
  le := (List.getElem?_eq_some_iff.mp hr).1
  here := by
    intro j q hj
    by_cases hji : j = i
    · subst hji
      rw [Function.update_self] at hj
      exact hx q hj
    · rw [Function.update_of_ne hji] at hj
      exact absurd (h.alone i j (by simp [hi]) (by simp [hj])) hji
  alone := by
    have heq : ∀ j, Function.update at? i x j ≠ none → j = i := by
      intro j hj
      by_contra hji
      rw [Function.update_of_ne hji] at hj
      exact hji (h.alone i j (by simp [hi]) hj)
    intro j k hj hk
    rw [heq j hj, heq k hk]
  behind := by
    intro j hj
    rw [h.behind j hj] at hr
    cases hr

/-- It is told of the end, and forgets the offset. -/
theorem last (h : Turn L off p at? behind) (hend : (reports 0 L.items)[p]? = none) :
    Turn L off p (Function.update at? i none) (Function.update behind i true) where
  off := h.off
  le := h.le
  here := by
    intro j q hj
    by_cases hji : j = i
    · subst hji
      rw [Function.update_self] at hj
      cases hj
    · rw [Function.update_of_ne hji] at hj
      exact h.here j q hj
  alone := by
    have hkeep : ∀ j, Function.update at? i none j ≠ none → at? j ≠ none := by
      intro j hj
      by_cases hji : j = i
      · subst hji
        rw [Function.update_self] at hj
        exact absurd rfl hj
      · rwa [Function.update_of_ne hji] at hj
    intro j k hj hk
    exact h.alone j k (hkeep j hj) (hkeep k hk)
  behind := fun _ _ => hend

/-- What is behind the end is forgotten. -/
theorem leave (h : Turn L off p at? behind) : Turn L off p at? (Function.update behind i false) where
  off := h.off
  le := h.le
  here := h.here
  alone := h.alone
  behind := by
    intro j hj
    by_cases hji : j = i
    · subst hji
      rw [Function.update_self] at hj
      cases hj
    · rw [Function.update_of_ne hji] at hj
      exact h.behind j hj

end Turn

/-! ### The records -/

/-- The records that the offset has been moved behind. -/
def gone (L : Layout) (p : Nat) : List (Nat × Next) := ((reports 0 L.items).take p).filter fun r => r.2.type ≠ 0

theorem gone_next {p : Nat} {r : Nat × Next} (hr : (reports 0 L.items)[p]? = some r) :
    gone L (p + 1) = gone L p ++ if r.2.type ≠ 0 then [r] else [] := by
  unfold gone
  rw [List.take_add_one, hr, Option.toList_some, List.filter_append]
  by_cases htype : r.2.type ≠ 0
  · rw [if_pos htype, List.filter_singleton]
    simp [htype]
  · rw [if_neg htype, List.filter_singleton]
    simp [htype]

theorem gone_sub (L : Layout) (p : Nat) : gone L p ⊆ records L := by
  intro r hr
  obtain ⟨hmem, htype⟩ := List.mem_filter.mp hr
  exact mem_reports.mp ⟨List.mem_of_mem_take hmem, of_decide_eq_true htype⟩

theorem mem_gone_end {p : Nat} (hend : (reports 0 L.items)[p]? = none) {r : Nat × Next} (hr : r ∈ records L) :
    r ∈ gone L p := by
  obtain ⟨hmem, htype⟩ := mem_reports.mpr hr
  unfold gone
  rw [List.take_of_length_le (List.getElem?_eq_none_iff.mp hend)]
  exact List.mem_filter.mpr ⟨hmem, decide_eq_true htype⟩

/-- No report is behind itself. -/
theorem not_mem_gone {p : Nat} {r : Nat × Next} (hr : (reports 0 L.items)[p]? = some r) : r ∉ gone L p := by
  have hnodup := follows_nodup (follows_reports L) fun _ => reports_count
  intro hmem
  obtain ⟨q, hq, hget⟩ := List.mem_take_iff_getElem.mp (List.mem_filter.mp hmem).1
  obtain ⟨hp, hget'⟩ := List.getElem?_eq_some_iff.mp hr
  have := (hnodup.getElem_inj_iff).mp (hget.trans hget'.symm)
  omega

/-- The record has been copied out so. -/
def Copied (r : Nat × Next) (x : Returned) : Prop := x.st = estat (Next.fill r.2 x.frame.de) x.frame.dev x.frame.st

/-- Each record that is behind the offset has been returned, or is in the hands of one call. -/
structure Given (L : Layout) (p : Nat) (ret : List (Nat × Next)) (hand : Nat → Option (Nat × Next)) (returned : List Returned)
    (ended : Bool) : Prop where
  nodup : ret.Nodup
  sub : ret ⊆ gone L p
  hands : ∀ i r, hand i = some r → r ∈ gone L p ∧ r ∉ ret
  alone : ∀ i j r, hand i = some r → hand j = some r → j = i
  all : ∀ r ∈ gone L p, r ∈ ret ∨ ∃ i, hand i = some r
  copied : List.Forall₂ Copied ret returned
  ended : ended = true → records L ⊆ ret

namespace Given
variable {p : Nat} {ret : List (Nat × Next)} {hand : Nat → Option (Nat × Next)} {returned : List Returned} {ended : Bool}
  {i : Nat} {r : Nat × Next}

/-- The offset moves behind a gap. -/
theorem gap (h : Given L p ret hand returned ended) (hr : (reports 0 L.items)[p]? = some r) (htype : r.2.type = 0) :
    Given L (p + 1) ret hand returned ended := by
  have hgone : gone L (p + 1) = gone L p := by
    rw [gone_next hr, if_neg (not_not_intro htype), List.append_nil]
  refine ⟨h.nodup, ?_, ?_, h.alone, ?_, h.copied, h.ended⟩
  · rw [hgone]
    exact h.sub
  · rw [hgone]
    exact h.hands
  · rw [hgone]
    exact h.all

/-- The offset moves behind a record, and the call has it in its hands. -/
theorem take (h : Given L p ret hand returned ended) (hr : (reports 0 L.items)[p]? = some r) (htype : r.2.type ≠ 0)
    (hi : hand i = none) : Given L (p + 1) ret (Function.update hand i (some r)) returned ended := by
  have hgone : gone L (p + 1) = gone L p ++ [r] := by
    rw [gone_next hr, if_pos htype]
  have hnew := not_mem_gone hr
  refine ⟨h.nodup, fun x hx => ?_, fun j x hj => ?_, fun j k x hj hk => ?_, fun x hx => ?_, h.copied, h.ended⟩
  · rw [hgone]
    exact List.mem_append_left _ (h.sub hx)
  · rw [hgone]
    by_cases hji : j = i
    · subst hji
      rw [Function.update_self] at hj
      cases hj
      exact ⟨List.mem_append_right _ (List.mem_singleton_self _), fun hmem => hnew (h.sub hmem)⟩
    · rw [Function.update_of_ne hji] at hj
      obtain ⟨hmem, hret⟩ := h.hands j x hj
      exact ⟨List.mem_append_left _ hmem, hret⟩
  · -- what others have in their hands is behind the offset already
    have hother : ∀ m, m ≠ i → Function.update hand i (some r) m ≠ some r := by
      intro m hm hmr
      rw [Function.update_of_ne hm] at hmr
      exact hnew (h.hands m r hmr).1
    by_cases hji : j = i
    · subst hji
      rw [Function.update_self] at hj
      cases hj
      by_contra hkj
      exact hother k hkj hk
    · by_cases hki : k = i
      · subst hki
        rw [Function.update_self] at hk
        cases hk
        exact absurd hj (hother j hji)
      · rw [Function.update_of_ne hji] at hj
        rw [Function.update_of_ne hki] at hk
        exact h.alone j k x hj hk
  · rw [hgone] at hx
    rcases List.mem_append.mp hx with hx | hx
    · rcases h.all x hx with hret | ⟨j, hj⟩
      · exact .inl hret
      · have hji : j ≠ i := by
          rintro rfl
          rw [hi] at hj
          cases hj
        exact .inr ⟨j, by rw [Function.update_of_ne hji]; exact hj⟩
    · obtain rfl := List.mem_singleton.mp hx
      exact .inr ⟨i, Function.update_self ..⟩

/-- The call copies its record out. -/
theorem give (h : Given L p ret hand returned ended) (hi : hand i = some r) {x : Returned} (hx : Copied r x) :
    Given L p (ret ++ [r]) (Function.update hand i none) (returned ++ [x]) ended := by
  obtain ⟨hmem, hret⟩ := h.hands i r hi
  refine ⟨?_, fun x hx => ?_, fun j x hj => ?_, fun j k x hj hk => ?_, fun x hx => ?_,
    List.rel_append h.copied (.cons hx .nil), fun hended x hx => List.mem_append_left _ (h.ended hended hx)⟩
  · rw [List.nodup_append]
    refine ⟨h.nodup, List.nodup_singleton r, fun a ha b hb => ?_⟩
    obtain rfl := List.mem_singleton.mp hb
    exact fun hab => hret (hab ▸ ha)
  · rcases List.mem_append.mp hx with hx | hx
    · exact h.sub hx
    · obtain rfl := List.mem_singleton.mp hx
      exact hmem
  · by_cases hji : j = i
    · subst hji
      rw [Function.update_self] at hj
      cases hj
    · rw [Function.update_of_ne hji] at hj
      obtain ⟨hgone, hnot⟩ := h.hands j x hj
      refine ⟨hgone, fun hx => ?_⟩
      rcases List.mem_append.mp hx with hx | hx
      · exact hnot hx
      · obtain rfl := List.mem_singleton.mp hx
        exact hji (h.alone i j x hi hj)
  · by_cases hji : j = i
    · subst hji
      rw [Function.update_self] at hj
      cases hj
    · by_cases hki : k = i
      · subst hki
        rw [Function.update_self] at hk
        cases hk
      · rw [Function.update_of_ne hji] at hj
        rw [Function.update_of_ne hki] at hk
        exact h.alone j k x hj hk
  · rcases h.all x hx with hret | ⟨j, hj⟩
    · exact .inl (List.mem_append_left _ hret)
    · by_cases hji : j = i
      · subst hji
        rw [hi] at hj
        cases hj
        exact .inl (List.mem_append_right _ (List.mem_singleton_self _))
      · exact .inr ⟨j, by rw [Function.update_of_ne hji]; exact hj⟩

/-- A call returns 0, with nothing in anybody's hands. -/
theorem finish (h : Given L p ret hand returned ended) (hend : (reports 0 L.items)[p]? = none) (hnone : ∀ i, hand i = none) :
    Given L p ret hand returned true := by
  refine ⟨h.nodup, h.sub, h.hands, h.alone, h.all, h.copied, fun _ r hr => ?_⟩
  rcases h.all r (mem_gone_end hend hr) with hret | ⟨i, hi⟩
  · exact hret
  · rw [hnone i] at hi
    cases hi

end Given

end Farron.Stat
