import Farron.Fat.Handles

/-! Looking up a path.

`lookup_path` takes one piece of the path after the other (`pieces`), looks each up in the directory
that the one before has led to (`Leads`), and keeps one handle, which is in the end on the entry
returned (`paths_resolve`). The cache may be full, and the kernel panics then (`Full`). -/
namespace Farron
open Resumption
variable {fat : Fat} {D : Nat → Option (List Nat × Layout)} {s₀ s : State} {mine : List Ptr} {lock : Ptr → Option Nat}

/-! ### `dirlookup` and the handles -/

/-- Only the cursor of `dp` and what `enext` fills in of `ep` differ. -/
structure Filled (dp ep : Ptr) (s s' : State) : Prop where
  disk : s'.disk = s.disk
  other : ∀ e, e ≠ ep → e ≠ dp → s'.dirents e = s.dirents e
  dir : ∃ c k, s'.dirents dp = { s.dirents dp with curClus := c, clusCnt := k }
  valid : (s'.dirents ep).valid = (s.dirents ep).valid
  ref : (s'.dirents ep).ref = (s.dirents ep).ref
  parent : (s'.dirents ep).parent = (s.dirents ep).parent
  dirty : (s'.dirents ep).dirty = (s.dirents ep).dirty
  lock : (s'.dirents ep).lock = (s.dirents ep).lock

section Filled
variable {dp ep : Ptr}

theorem Filled.refl (s : State) : Filled dp ep s s :=
  ⟨rfl, fun _ _ _ => rfl, ⟨_, _, rfl⟩, rfl, rfl, rfl, rfl, rfl⟩

theorem Filled.trans (s₁ s₂ s₃ : State) (h : Filled dp ep s₁ s₂) (h' : Filled dp ep s₂ s₃) : Filled dp ep s₁ s₃ := by
  obtain ⟨c, k, hdir⟩ := h.dir
  obtain ⟨c', k', hdir'⟩ := h'.dir
  exact ⟨h'.disk.trans h.disk, fun e he he' => (h'.other e he he').trans (h.other e he he'), ⟨c', k', by rw [hdir', hdir]⟩,
    h'.valid.trans h.valid, h'.ref.trans h.ref, h'.parent.trans h.parent, h'.dirty.trans h.dirty, h'.lock.trans h.lock⟩

variable (hne : ep ≠ dp)
include hne

theorem filled_cursor (s : State) (c k : Nat) : Filled dp ep s (s.setCursor dp c k) := by
  have hslot : (s.setCursor dp c k).dirents ep = s.dirents ep := State.setCursor_ne _ _ _ hne
  exact ⟨rfl, fun e _ he => State.setCursor_ne _ _ _ he, ⟨c, k, State.setCursor_same ..⟩, by rw [hslot], by rw [hslot],
    by rw [hslot], by rw [hslot], by rw [hslot]⟩

theorem within_fillDirent (r : Next) : (fillDirent ep r).Within (fun _ => Filled dp ep) fun _ => True := by
  apply Prog.Within.change
  intro s
  constructor
  · rfl
  · exact fun e he _ => State.setDirent_ne _ _ _ _ he
  · exact ⟨_, _, State.setDirent_ne _ _ _ _ hne.symm⟩
  all_goals
    rw [State.setDirent_same]
    cases r.info <;> rfl

theorem within_dirlookupLoop (name : CString) (n off count : Nat) :
    (dirlookupLoop fat dp ep name n off count).Within (fun _ => Filled dp ep) fun _ => True := by
  induction n generalizing off count with
  | zero => trivial
  | succ n ih =>
    refine Prog.Within.look _ _ Filled.refl fun s => ?_
    have hnext : (enext fat dp (s.dirents ep).valid off count).Within (fun _ => Filled dp ep) fun _ => True := by
      apply Prog.Within.mono (reads_enext _ _ _)
      rintro _ s s' ⟨c, k, rfl⟩
      exact filled_cursor hne s c k
    refine hnext.bind fun r => (within_fillDirent hne r).bind fun _ => ?_
    split
    · trivial
    · split
      · trivial
      · exact ih _ _

/-- Filling a slot in that is nobody's file yet changes nothing that counts. -/
theorem Along.filled {s' : State} (h : Along D s₀ s mine lock) (hf : Filled dp ep s s') (hvalid : (s.dirents ep).valid = 0)
    (hdir : (s'.dirents dp).valid = 1 → (s'.dirents dp).attr &&& attrDirectory ≠ 0 →
      ∃ l L, D (s'.dirents dp).firstClus = some (l, L) ∧ Holds (s'.dirents dp) l) : Along D s₀ s' mine lock := by
  obtain ⟨c, k, hdp⟩ := hf.dir
  have h₁ : Along D s₀ (s.setDirent dp fun _ => s'.dirents dp) mine lock := by
    have := h.aside (e := dp) (f := fun _ => s'.dirents dp) rfl (by rw [hdp]) (by rw [hdp]) (by rw [hdp]) (by rw [hdp]) hdir
    rwa [hdp, h.keep_lock dp, ← hdp] at this
  have hsame : (s.setDirent dp fun _ => s'.dirents dp).dirents ep = s.dirents ep := State.setDirent_ne _ _ _ _ hne
  have h₂ : Along D s₀ ((s.setDirent dp fun _ => s'.dirents dp).setDirent ep fun _ => s'.dirents ep) mine lock := by
    have hzero : (s'.dirents ep).valid ≠ 1 := by
      rw [hf.valid, hvalid]
      decide
    have := h₁.aside (e := ep) (f := fun _ => s'.dirents ep) rfl (by rw [hsame, hf.ref]) (by rw [hsame, hf.valid])
      (by rw [hsame, hf.parent]) (by rw [hsame, hf.dirty]) fun hv => absurd hv hzero
    rwa [hf.lock, ← hsame, h₁.keep_lock ep] at this
  have heq : s' = { (s.setDirent dp fun _ => s'.dirents dp).setDirent ep fun _ => s'.dirents ep with
      lru := s'.lru, retired := s'.retired } := by
    have hdirents : s'.dirents = ((s.setDirent dp fun _ => s'.dirents dp).setDirent ep fun _ => s'.dirents ep).dirents := by
      funext e
      by_cases he : e = ep
      · subst he
        rw [State.setDirent_same]
      · rw [State.setDirent_ne _ _ _ _ he]
        by_cases he' : e = dp
        · subst he'
          rw [State.setDirent_same]
        · rw [State.setDirent_ne _ _ _ _ he', hf.other e he he']
    obtain ⟨disk, dirents, lru, retired⟩ := s'
    have hdisk : disk = s.disk := hf.disk
    subst hdisk
    exact congrArg (fun d => (⟨s.disk, d, lru, retired⟩ : State)) hdirents
  rw [heq]
  exact h₂.history _ _

end Filled

/-! ### A slot is taken -/

/-- Only how many handles there are on each dirent counts. -/
theorem Along.perm {mine' : List Ptr} (h : Along D s₀ s mine lock) (hp : mine.Perm mine') : Along D s₀ s mine' lock := by
  refine ⟨h.disk, fun e => ?_, h.up, h.root, h.kept, h.clean, h.fresh, h.lock, h.cached⟩
  rw [h.handles, hp.count_eq]

section Slot
variable {dp : Ptr} {i : Slot} {rest : List Ptr}

/-- A cached entry without references is a handle on its parent from now on. -/
theorem Along.revive (h : Along D s₀ s (dp :: rest) lock) (href : (s.dirents (.entry i)).ref = 0)
    (hvalid : (s.dirents (.entry i)).valid = 1) (hp : (s.dirents (.entry i)).parent = some dp)
    (hdp : (s.dirents dp).valid ≠ 0) : Along D s₀ (s.addRef (.entry i) 1) (.entry i :: rest) lock := by
  have hdead : ¬ s.Live (.entry i) := by
    intro hl
    have : 0 < (s.dirents (.entry i)).ref := hl.1
    omega
  have hlive : ({ s.dirents (.entry i) with ref := (s.dirents (.entry i)).ref + 1 } : Dirent).Live := by
    refine ⟨?_, ?_⟩
    · show 0 < (s.dirents (.entry i)).ref + 1
      omega
    · show (s.dirents (.entry i)).valid ≠ 0
      omega
  have hset : Along D s₀ (s.addRef (.entry i) 1) (.entry i :: rest) (Function.update lock (.entry i) (s.dirents (.entry i)).lock) := by
    refine h.set rfl (fun p => ?_) (.inl id) (fun hr => by cases hr) (fun _ _ => ⟨dp, hp, hdp⟩)
      (fun hl => absurd (h.kept _ hl).1 hdead) (fun _ hz => ?_) (fun _ _ _ => ⟨hvalid, h.clean i href hvalid⟩)
      (h.cached_of id rfl rfl rfl rfl)
    · rw [Dirent.childOf_dead hdead, List.count_cons, List.count_cons]
      have hone : ((if p = .entry i then (s.dirents (.entry i)).ref + 1 - (s.dirents (.entry i)).ref else 0 : Int)) =
          if .entry i = p then 1 else 0 := by
        by_cases hpi : p = .entry i
        · rw [if_pos hpi, if_pos hpi.symm]
          omega
        · rw [if_neg hpi, if_neg (Ne.symm hpi)]
      by_cases hpd : p = dp
      · subst hpd
        rw [Dirent.childOf_same hlive hp, hone]
        simp
      · rw [Dirent.childOf_other (x := { s.dirents (.entry i) with ref := (s.dirents (.entry i)).ref + 1 }) hp hpd, hone]
        simp [Ne.symm hpd]
    · have hz : (s.dirents (.entry i)).ref + 1 = 0 := hz
      omega
  rwa [h.keep_lock] at hset

/-- A hit. -/
theorem Along.hit (h₀ : Settled fat D s₀) (h : Along D s₀ s (dp :: rest) lock) {name : CString}
    (hhit : s.egetHit dp (some name) = some i) (hdp : (s.dirents dp).valid ≠ 0) :
    Along D s₀ (s.egetRef dp i) (.entry i :: dp :: rest) lock ∧ ((s.egetRef dp i).dirents (.entry i)).valid = 1 := by
  obtain ⟨⟨hvalid, hp⟩, -⟩ : ((s.dirents (.entry i)).valid = 1 ∧ (s.dirents (.entry i)).parent = some dp) ∧ _ := by
    simpa using List.find?_some (show s.lru.find? _ = some i from hhit)
  have hpos := h.ref_pos h₀ List.mem_cons_self
  unfold State.egetRef
  by_cases href : (s.dirents (.entry i)).ref = 0
  · have hne : dp ≠ .entry i := by
      rintro rfl
      omega
    have hpos' : 0 < ((s.addRef (.entry i) 1).dirents dp).ref := by
      rw [State.addRef, State.setDirent_ne _ _ _ _ hne]
      exact hpos
    rw [if_pos href]
    constructor
    · exact ((h.revive href hvalid hp hdp).grab h₀ (.inl hpos')).perm (List.Perm.swap ..)
    · rw [State.addRef, State.setDirent_ne _ _ _ _ hne.symm, State.addRef, State.setDirent_same]
      exact hvalid
  · have hnonneg := h.ref_nonneg h₀ (.entry i)
    rw [if_neg href]
    constructor
    · exact h.grab h₀ (.inl (by omega))
    · rw [State.addRef, State.setDirent_same]
      exact hvalid

/-- A miss, with a slot free. -/
theorem Along.clear (h₀ : Settled fat D s₀) (h : Along D s₀ s mine lock) (href : (s.dirents (.entry i)).ref = 0) :
    Along D s₀ (s.egetClear i) (.entry i :: mine) lock := by
  have hdead : ¬ s.Live (.entry i) := by
    intro hl
    have : 0 < (s.dirents (.entry i)).ref := hl.1
    omega
  have hgone : ¬ ({ s.dirents (.entry i) with ref := 1, off := 0, valid := 0, dirty := false } : Dirent).Live :=
    fun hl => hl.2 rfl
  have hset : Along D s₀ (s.setDirent (.entry i) fun d => { d with ref := 1, off := 0, valid := 0, dirty := false })
      (.entry i :: mine) (Function.update lock (.entry i) (s.dirents (.entry i)).lock) := by
    refine h.set rfl (fun p => ?_) (.inr ⟨Ptr.noConfusion, hgone, fun x hx hp => ?_⟩) (fun hr => by cases hr)
      (fun _ hl => absurd hl hgone) (fun hl => absurd (h.kept _ hl).1 hdead) (fun _ hz => by cases hz)
      (fun _ hl => absurd hl hgone) (fun hv => by cases hv)
    · rw [Dirent.childOf_dead hdead, Dirent.childOf_dead hgone, List.count_cons, href]
      by_cases hpi : p = .entry i
      · subst hpi
        simp
      · simp [hpi, Ne.symm hpi]
    · have hcount := h.ref_eq (.entry i)
      have := h₀.handles (.entry i)
      have := State.children_pos hx hp
      omega
  rw [h.keep_lock] at hset
  exact hset.history ..

/-- The slot is the file's from now on, and a handle on its directory. -/
theorem Along.publish (h : Along D s₀ s (dp :: .entry i :: rest) lock) (off : Nat) (href : (s.dirents (.entry i)).ref = 1)
    (hvalid : (s.dirents (.entry i)).valid = 0) (hdirty : (s.dirents (.entry i)).dirty = false)
    (hdp : (s.dirents dp).valid ≠ 0) {f : Dirent → Dirent}
    (hf : f (s.dirents (.entry i)) = { s.dirents (.entry i) with parent := some dp, off, valid := 1 })
    (hcached : (s.dirents (.entry i)).attr &&& attrDirectory ≠ 0 →
      ∃ l L, D (s.dirents (.entry i)).firstClus = some (l, L) ∧ Holds (s.dirents (.entry i)) l) :
    Along D s₀ (s.setDirent (.entry i) f) (.entry i :: rest) lock := by
  have hdead : ¬ s.Live (.entry i) := fun hl => hl.2 hvalid
  have hlive : ({ s.dirents (.entry i) with parent := some dp, off, valid := 1 } : Dirent).Live := by
    refine ⟨?_, Int.one_ne_zero⟩
    show 0 < (s.dirents (.entry i)).ref
    omega
  have hset : Along D s₀ (s.setDirent (.entry i) f) (.entry i :: rest)
      (Function.update lock (.entry i) (s.dirents (.entry i)).lock) := by
    refine h.set hf (fun p => ?_) (.inl fun hv => absurd hvalid hv) (fun hr => by cases hr) (fun _ _ => ⟨dp, rfl, hdp⟩)
      (fun hl => absurd (h.kept _ hl).1 hdead) (fun _ hz => ?_) (fun _ _ _ => ⟨rfl, hdirty⟩) (fun _ ha => ?_)
    · rw [Dirent.childOf_dead hdead, List.count_cons (b := dp)]
      by_cases hpd : p = dp
      · subst hpd
        rw [Dirent.childOf_same hlive rfl]
        simp
      · rw [Dirent.childOf_other (p := dp) rfl hpd]
        simp [Ne.symm hpd]
    · have hz : (s.dirents (.entry i)).ref = 0 := hz
      omega
    · obtain ⟨l, L, hD, hholds⟩ := hcached ha
      exact ⟨l, L, hD, hholds.first, hholds.cursor⟩
  rwa [h.keep_lock] at hset

end Slot

/-! ### What `dirlookup` returns is held -/

/-- A report with a name is a record's. -/
theorem exists_record {k : Nat} {items : List Item} {r : Nat × Next} (hr : r ∈ reports k items) (hname : r.2.name ≠ []) :
    ∃ x ∈ items, r.2 = x.record.report := by
  induction items generalizing k with
  | nil => simp [reports] at hr
  | cons x items ih =>
    rcases List.mem_append.mp hr with hx | hrest
    · rcases List.mem_append.mp hx with hm | hm
      · split_ifs at hm
        · simp at hm
        · obtain rfl := List.mem_singleton.mp hm
          exact absurd rfl hname
      · obtain rfl := List.mem_singleton.mp hm
        exact ⟨x, by simp, rfl⟩
    · obtain ⟨y, hy, he⟩ := ih hrest
      exact ⟨y, List.mem_cons_of_mem _ hy, he⟩

section Dirlookup
variable {dp : Ptr} {i : Slot} {rest : List Ptr} {l : List Nat} {L : Layout} {name : CString} {n : Nat} (w : fat.Wf)
  (h₀ : Settled fat D s₀) (pid : Nat) (hname : name ≠ []) (hn : 0 < n)
include w h₀ hname hn

theorem Along.scan (h : Along D s₀ s (.entry i :: dp :: rest) lock) (hdir : DirAt fat s dp l)
    (hD : D (s.dirents dp).firstClus = some (l, L)) (hne : Ptr.entry i ≠ dp) (hvalid : (s.dirents (.entry i)).valid = 0)
    (href : (s.dirents (.entry i)).ref = 1) (hdirty : (s.dirents (.entry i)).dirty = false) (hdot : name ≠ [charDot])
    (hdotdot : name ≠ [charDot, charDot]) :
    ∃ r o s', (dirlookupScan fat pid n dp (.entry i) name).run s = .done (r, o) s' ∧
      Along D s₀ s' (r.toList ++ dp :: rest) lock ∧ ∀ e ∈ r, (s'.dirents e).valid ≠ 0 := by
  obtain ⟨n, rfl⟩ : ∃ m, n = m + 1 := ⟨n - 1, by omega⟩
  obtain ⟨hon, hends⟩ : L.On fat s.disk l ∧ L.Ends fat s.disk l := by
    rw [h.disk]
    exact h₀.dirs.on _ _ _ hD
  obtain ⟨c₀, hc₀⟩ : ∃ c, l[0 / fat.bytsPerClus]? = some c := by
    rw [Nat.zero_div]
    exact ⟨_, List.getElem?_eq_getElem (List.length_pos_iff.mpr hdir.nonempty)⟩
  obtain ⟨s₁, hs₁⟩ : ∃ s₁, s.setCursor dp c₀ (0 / fat.bytsPerClus) = s₁ := ⟨_, rfl⟩
  have hreloc : (relocClus fat dp 0 false).run s = .done _ s₁ :=
    (run_relocClus_within w (by decide) hc₀ false s hdir.chain hdir.holds).trans (by rw [hs₁])
  have hdir₁ : DirAt fat s₁ dp l := by
    rw [← hs₁]
    exact hdir.setCursor hc₀
  have hcur : Filled dp (.entry i) s s₁ := by
    rw [← hs₁]
    exact filled_cursor hne s ..
  have hlt := hends.1
  have hfew : (reports 0 L.items).length < maxSlots + 1 := by
    have hle := length_reports_le 0 L.items
    unfold recordSz at hlt
    unfold maxSlots
    omega
  have hfollow := reports_follow 0 L.items
  rw [Nat.zero_add] at hfollow
  obtain ⟨s₂, hdir₂, hvalid₂, hloop⟩ := run_dirlookupLoop name hne (reports 0 L.items) 0 _ (maxSlots + 1) 0 hdir₁ hcur.disk
    (hcur.valid.trans hvalid) hfollow (by unfold recordSz at hlt ⊢; omega)
    (fun r hr => ⟨L.reportsAt w hon hends dp hr, reports_type hr, reports_name_lt hr⟩) (L.endAt w hon hends dp) hfew
  have hfill : ∀ {b : Bool × Nat}, (dirlookupLoop fat dp (.entry i) name (maxSlots + 1) 0 0).run s₁ = .done b s₂ →
      Filled dp (.entry i) s s₂ := fun hrun =>
    hcur.trans _ _ _ (Prog.Within.run_done Filled.refl Filled.trans (within_dirlookupLoop hne name _ _ _) hrun)
  have hat : ∀ {s' : State}, Filled dp (.entry i) s s' → DirAt fat s' dp l → Along D s₀ s' (.entry i :: dp :: rest) lock := by
    intro s' hf hdir'
    obtain ⟨c, k, hdp⟩ := hf.dir
    refine h.filled hne hf hvalid fun _ _ => ⟨l, L, ?_, hdir'.holds⟩
    rw [hdp]
    exact hD
  cases hfind : (reports 0 L.items).find? fun r => r.2.name == name with
  | some r =>
    rw [hfind] at hloop
    obtain ⟨hrun, hinfo⟩ := hloop
    have hrun' : (dirlookupLoop fat dp (.entry i) name (maxSlots + 1) 0 0).run s₁ = .done (true, recordSz * r.1) s₂ := hrun
    have hf := hfill hrun'
    have hgrab : Along D s₀ (s₂.addRef dp 1) (dp :: .entry i :: dp :: rest) lock :=
      (hat hf hdir₂).grab h₀ (.inl ((hat hf hdir₂).ref_pos h₀ (by simp)))
    have hd : (s₂.addRef dp 1).dirents (.entry i) = s₂.dirents (.entry i) := State.setDirent_ne _ _ _ _ hne
    have hdpv : ((s₂.addRef dp 1).dirents dp).valid ≠ 0 := by
      rw [State.addRef, State.setDirent_same]
      show (s₂.dirents dp).valid ≠ 0
      rw [hdir₂.valid]
      decide
    have hset := hgrab.publish (recordSz * r.1) (f := fun d => { d with parent := some dp, off := recordSz * r.1, valid := 1 })
      (by rw [hd, hf.ref, href]) (by rw [hd, hvalid₂]) (by rw [hd, hf.dirty, hdirty]) hdpv rfl fun hattr => by
        -- the record is a directory's
        rw [hd] at hattr ⊢
        have hfound : r.2.name = name := by simpa using List.find?_some hfind
        obtain ⟨x, hx, hrep⟩ := exists_record (List.mem_of_find?_eq_some hfind) (by rw [hfound]; exact hname)
        obtain ⟨hhas, hcc, hcnt⟩ := hinfo (readEntryInfo x.record.short) (by rw [hrep]; rfl)
        have hxname : x.record.name = name := by rw [← hfound, hrep]; rfl
        rw [hhas.1] at hattr
        obtain ⟨⟨l', L'⟩, hl'⟩ := Option.isSome_iff_exists.mp (h₀.dirs.closed _ _ _ hD x hx hattr (by rw [hxname]; exact hdot)
          (by rw [hxname]; exact hdotdot))
        refine ⟨l', L', by rw [hhas.2.1]; exact hl', ?_, ?_⟩
        · rw [hhas.2.1, List.headD_eq_head?_getD, (h₀.dirs.chain _ _ _ hl').2]
          rfl
        · intro _
          rw [hcc, hcnt, ← List.head?_eq_getElem?]
          exact (h₀.dirs.chain _ _ _ hl').2
    have hend : (((s₂.addRef dp 1).setDirent (.entry i) fun d => { d with parent := some dp, off := recordSz * r.1 }).setDirent
        (.entry i) fun d => { d with valid := 1 }) = (s₂.addRef dp 1).setDirent (.entry i) fun d =>
          { d with parent := some dp, off := recordSz * r.1, valid := 1 } := State.setDirent_setDirent ..
    refine ⟨some (.entry i), none, (s₂.addRef dp 1).setDirent (.entry i) fun d =>
      { d with parent := some dp, off := recordSz * r.1, valid := 1 }, ?_, hset, ?_⟩
    · rw [dirlookupScan, Prog.run_bind_done hreloc, Prog.run_bind_done hrun', if_pos rfl, ← hend]
      rfl
    · rintro e ⟨⟩
      have hlast : (((s₂.addRef dp 1).setDirent (.entry i) fun d =>
          { d with parent := some dp, off := recordSz * r.1, valid := 1 }).dirents (.entry i)).valid = 1 := by
        rw [State.setDirent_same]
      exact fun hz => absurd (hlast.symm.trans hz) (by decide)
  | none =>
    rw [hfind] at hloop
    have hrun' : (dirlookupLoop fat dp (.entry i) name (maxSlots + 1) 0 0).run s₁ =
        .done (false, recordSz * (Layout.used L.items).length) s₂ := hloop
    have hlast : s₂.lastRef (.entry i) = false := by simp [State.lastRef, hvalid₂]
    have hput : (eput fat pid (n + 1) (some (.entry i))).run s₂ = .done () (s₂.addRef (.entry i) (-1)) := by
      rw [eput, Prog.run_act_some, hlast]
      unfold State.eputEnter
      rw [hlast]
      rfl
    refine ⟨none, some (recordSz * (Layout.used L.items).length), s₂.addRef (.entry i) (-1), ?_,
      (hat (hfill hrun') hdir₂).giveUp h₀ hlast, by simp⟩
    rw [dirlookupScan, Prog.run_bind_done hreloc, Prog.run_bind_done hrun', if_neg (by simp), Prog.run_bind_done hput]
    rfl

/-- **A lookup of one name** finds nothing, or has a handle more on what it finds; it panics where it misses
the cache and that is full. -/
theorem run_dirlookup (h : Along D s₀ s (dp :: rest) lock) (hdp : (s.dirents dp).valid ≠ 0)
    (hattr : (s.dirents dp).attr &&& attrDirectory ≠ 0) :
    (∃ r o s', (dirlookup fat pid n dp name).run s = .done (r, o) s' ∧
      Along D s₀ s' (r.toList ++ dp :: rest) lock ∧ ∀ e ∈ r, (s'.dirents e).valid ≠ 0) ∨
    (dirlookup fat pid n dp name).run s = .stopped (.panic "eget: insufficient ecache") ∧
      s.egetHit dp (some name) = none ∧ s.egetFree = none := by
  have hpos := h.ref_pos h₀ List.mem_cons_self
  have hkeep : ∀ e k, ((s.addRef e k).dirents e).valid = (s.dirents e).valid := by
    intro e k
    rw [State.addRef, State.setDirent_same]
  rw [dirlookup, Prog.run_bind_done (run_dirent ..), if_neg hattr]
  by_cases hdot : strncmpEq fat32MaxFilename name [charDot]
  · rw [if_pos hdot]
    refine .inl ⟨some dp, none, s.addRef dp 1, rfl, h.grab h₀ (.inl hpos), ?_⟩
    rintro e ⟨⟩
    rwa [hkeep]
  rw [if_neg hdot]
  by_cases hdotdot : strncmpEq fat32MaxFilename name [charDot, charDot]
  · rw [if_pos hdotdot]
    by_cases hroot : dp = .root
    · rw [if_pos hroot]
      refine .inl ⟨some .root, none, s.addRef .root 1, rfl, h.grab h₀ (.inr rfl), ?_⟩
      rintro e ⟨⟩
      rw [hkeep]
      exact h.root.1
    · rw [if_neg hroot]
      obtain ⟨p, hp, hpv⟩ := h.up dp hroot ⟨hpos, hdp⟩
      rw [hp]
      refine .inl ⟨some p, none, s.addRef p 1, rfl, h.grab h₀ (.inl (h.parent_live h₀ ⟨hpos, hdp⟩ hroot hp).1), ?_⟩
      rintro e ⟨⟩
      rwa [hkeep]
  rw [if_neg hdotdot]
  by_cases hone : (s.dirents dp).valid = 1
  · rw [if_neg (not_not_intro hone)]
    cases hhit : s.egetHit dp (some name) with
    | some i =>
      obtain ⟨halong, hvalid⟩ := h.hit h₀ hhit hdp
      have hget : (eget dp (some name)).run s = .done (.entry i) (s.egetRef dp i) := by
        rw [eget, Prog.run_act_some, State.eget, hhit]
        rfl
      refine .inl ⟨some (.entry i), none, s.egetRef dp i, ?_, halong, ?_⟩
      · rw [Prog.run_bind_done hget, Prog.run_bind_done (run_dirent ..), if_pos hvalid]
        rfl
      · rintro e ⟨⟩
        rw [hvalid]
        decide
    | none =>
      cases hfree : s.egetFree with
      | none =>
        refine .inr ⟨?_, rfl, rfl⟩
        rw [Prog.run_bind, eget, Prog.run_act_some, hhit, hfree]
        rfl
      | some i =>
        have href : (s.dirents (.entry i)).ref = 0 := by simpa using List.find?_some hfree
        have hne : Ptr.entry i ≠ dp := by
          rintro rfl
          omega
        have hget : (eget dp (some name)).run s = .done (.entry i) (s.egetClear i) := by
          rw [eget, Prog.run_act_some, State.eget, hhit, hfree]
          rfl
        have hd : (s.egetClear i).dirents dp = s.dirents dp :=
          s.setDirent_ne (.entry i) dp (fun d => { d with ref := 1, off := 0, valid := 0, dirty := false }) hne.symm
        have hi : (s.egetClear i).dirents (.entry i) =
            { s.dirents (.entry i) with ref := 1, off := 0, valid := 0, dirty := false } :=
          s.setDirent_same (.entry i) fun d => { d with ref := 1, off := 0, valid := 0, dirty := false }
        obtain ⟨l, L, hD, hholds⟩ := h.cached dp hone hattr
        have hdir : DirAt fat (s.egetClear i) dp l := by
          obtain ⟨hchain, hhead⟩ := h₀.dirs.chain _ _ _ hD
          refine ⟨by rwa [hd], by rwa [hd], ?_, by rwa [hd], fun hl => ?_⟩
          · rw [← h.disk] at hchain
            exact hchain
          · rw [hl] at hhead
            cases hhead
        rw [Prog.run_bind_done hget, Prog.run_bind_done (run_dirent ..), if_neg (by rw [hi]; exact Int.zero_ne_one)]
        exact .inl ((h.clear h₀ href).scan w h₀ pid hname hn hdir (by rw [hd]; exact hD) hne (by rw [hi]) (by rw [hi]) (by rw [hi])
          (fun he => hdot ((strncmpEq_iff (by decide)).mpr he.symm)) fun he => hdotdot ((strncmpEq_iff (by decide)).mpr he.symm))
  · rw [if_pos hone]
    exact .inl ⟨none, none, s, rfl, h, by simp⟩

end Dirlookup

/-! ### The pieces of a path -/

/-- The pieces between the slashes, each cut to what a name can have. -/
def pieces (path : CString) : List CString :=
  ((path.splitOn charSlash).filter (· ≠ [])).map (·.take fat32MaxFilename)

/-- `skipelem`, again and again, takes these off the path. -/
inductive Skips : CString → List CString → Prop
  | done {path : CString} (h : skipelem path = none) : Skips path []
  | next {path name rest : CString} {names : List CString} (h : skipelem path = some (name, rest)) (hs : Skips rest names) :
      Skips path (name :: names)

theorem pieces_slash (path : CString) : pieces (charSlash :: path) = pieces path := by
  unfold pieces
  rw [List.splitOn_cons_eq_if_modifyHead, if_pos (by simp)]
  rfl

theorem pieces_dropWhile (path : CString) : pieces (path.dropWhile (· == charSlash)) = pieces path := by
  induction path with
  | nil => rfl
  | cons c path ih =>
    by_cases hc : c = charSlash
    · rw [List.dropWhile_cons_of_pos (by simpa using hc), hc, pieces_slash]
      exact ih
    · rw [List.dropWhile_cons_of_neg (by simpa using hc)]

/-- Up to a slash, or the end. -/
theorem pieces_front (front path : CString) (hne : front ≠ []) (hfront : charSlash ∉ front)
    (hpath : path = [] ∨ path.head? = some charSlash) :
    pieces (front ++ path) = front.take fat32MaxFilename :: pieces path := by
  have hnil : pieces [] = [] := rfl
  rcases hpath with rfl | hhead
  · rw [hnil, List.append_nil, pieces, List.splitOn_eq_singleton hfront]
    simp [hne]
  · obtain ⟨rest, rfl⟩ : ∃ rest, path = charSlash :: rest := ⟨path.tail, (List.cons_head?_tail hhead).symm⟩
    rw [pieces_slash, pieces, List.splitOn_append_cons_self_of_not_mem hfront, List.filter_cons_of_pos (by simpa using hne)]
    rfl

/-- The first piece, and those behind it. -/
theorem pieces_cons {c : Byte} (tail : CString) (hc : c ≠ charSlash) :
    pieces (c :: tail) = ((c :: tail).takeWhile (· != charSlash)).take fat32MaxFilename ::
      pieces ((c :: tail).dropWhile (· != charSlash)) := by
  have hne : (c :: tail).takeWhile (· != charSlash) ≠ [] := by
    rw [List.takeWhile_cons_of_pos (by simpa using hc)]
    exact List.cons_ne_nil _ _
  have hmem : charSlash ∉ (c :: tail).takeWhile (· != charSlash) := by
    intro hm
    simpa using List.mem_takeWhile_imp hm
  have hback : (c :: tail).dropWhile (· != charSlash) = [] ∨ ((c :: tail).dropWhile (· != charSlash)).head? = some charSlash := by
    by_cases hb : (c :: tail).dropWhile (· != charSlash) = []
    · exact .inl hb
    · refine .inr ?_
      rw [List.head?_eq_some_head hb]
      simpa using List.head_dropWhile_not (p := (· != charSlash)) (l := c :: tail) hb
  rw [← pieces_front _ _ hne hmem hback, List.takeWhile_append_dropWhile]

section Skipelem
variable {path : CString}

theorem skipelem_eq (hne : path.dropWhile (· == charSlash) ≠ []) :
    skipelem path = some (((path.dropWhile (· == charSlash)).takeWhile (· != charSlash)).take fat32MaxFilename,
      ((path.dropWhile (· == charSlash)).dropWhile (· != charSlash)).dropWhile (· == charSlash)) := by
  unfold skipelem
  rw [if_neg hne]

/-- The path has run out. -/
theorem skipelem_none (h : skipelem path = none) : pieces path = [] := by
  have hnil : path.dropWhile (· == charSlash) = [] := by
    by_contra hne
    rw [skipelem_eq hne] at h
    cases h
  rw [← pieces_dropWhile, hnil]
  rfl

/-- Behind the slashes there is no slash. -/
theorem head_slashes {c : Byte} {tail : CString} (h : path.dropWhile (· == charSlash) = c :: tail) : c ≠ charSlash := by
  have := List.head_dropWhile_not (p := (· == charSlash)) (l := path) (by rw [h]; exact List.cons_ne_nil _ _)
  simpa [h] using this

/-- What is left has another piece, or is empty. -/
theorem skipelem_some {name rest : CString} (h : skipelem path = some (name, rest)) :
    pieces path = name :: pieces rest ∧ name ≠ [] ∧ rest.length < path.length ∧ (rest = [] ↔ pieces rest = []) := by
  have hne : path.dropWhile (· == charSlash) ≠ [] := by
    intro hnil
    unfold skipelem at h
    rw [if_pos hnil] at h
    cases h
  rw [skipelem_eq hne] at h
  obtain ⟨c, tail, hp⟩ := List.exists_cons_of_ne_nil hne
  rw [hp] at h
  have hpieces := pieces_cons tail (head_slashes hp)
  rw [← hp, pieces_dropWhile, hp] at hpieces
  have hfront : (c :: tail).takeWhile (· != charSlash) ≠ [] := by
    rw [List.takeWhile_cons_of_pos (by simpa using head_slashes hp)]
    exact List.cons_ne_nil _ _
  cases h
  refine ⟨by rw [hpieces, pieces_dropWhile], ?_, ?_, ?_⟩
  · rw [Ne, List.take_eq_nil_iff]
    simp [hfront, fat32MaxFilename]
  · have h1 : (((c :: tail).dropWhile (· != charSlash)).dropWhile (· == charSlash)).length ≤
        ((c :: tail).dropWhile (· != charSlash)).length := (List.dropWhile_suffix _).length_le
    have h2 : (path.dropWhile (· == charSlash)).length ≤ path.length := (List.dropWhile_suffix _).length_le
    have h3 := congrArg List.length (List.takeWhile_append_dropWhile (p := (· != charSlash)) (l := c :: tail))
    have h4 := List.length_pos_iff.mpr hfront
    rw [List.length_append] at h3
    rw [hp] at h2
    omega
  · constructor
    · intro hrest
      rw [hrest]
      rfl
    · intro hrest
      by_contra hb
      obtain ⟨d, more, hd⟩ := List.exists_cons_of_ne_nil hb
      rw [hd, pieces_cons more (head_slashes hd)] at hrest
      cases hrest

end Skipelem

/-- **`skipelem` yields the pieces of the path in order, and ends.** -/
theorem skips_pieces (path : CString) : Skips path (pieces path) := by
  induction hn : path.length using Nat.strong_induction_on generalizing path with
  | _ n ih =>
    cases h : skipelem path with
    | none =>
      rw [skipelem_none h]
      exact .done h
    | some r =>
      obtain ⟨name, rest⟩ := r
      obtain ⟨hpieces, -, hlen, -⟩ := skipelem_some h
      rw [hpieces]
      exact .next h (ih rest.length (by omega) rest rfl)

/-! ### Ways -/

/-- In `e`, locked meanwhile and given up then, the lookup of `name` answers `r`. -/
structure Looks (fat : Fat) (pid n : Nat) (e : Ptr) (name : CString) (s : State) (r : Option Ptr) (s' : State) : Prop where
  dir : (s.dirents e).attr &&& attrDirectory ≠ 0
  run : ∃ o s₁, (dirlookup fat pid n e name).run (s.setDirent e fun d => { d with lock := some pid }) = .done (r, o) s₁ ∧
    (eput fat pid n (some e)).run (s₁.setDirent e fun d => { d with lock := none }) = .done () s'

/-- From `e` one piece after the other leads to `e'`. -/
inductive Leads (fat : Fat) (pid n : Nat) : Ptr → State → List CString → Ptr → State → Prop
  | here (e : Ptr) (s : State) : Leads fat pid n e s [] e s
  | step {e e' e'' : Ptr} {s s' s'' : State} {name : CString} {names : List CString} (h : Looks fat pid n e name s (some e') s')
      (hw : Leads fat pid n e' s' names e'' s'') : Leads fat pid n e s (name :: names) e'' s''

/-- A piece is not looked up in a directory, or not found; with `parent` the last piece is not looked up. -/
def Fails (fat : Fat) (pid n : Nat) (parent : Bool) (e : Ptr) (s : State) (names : List CString) : Prop :=
  ∃ front name back e' s', names = front ++ name :: back ∧ Leads fat pid n e s front e' s' ∧
    ((s'.dirents e').attr &&& attrDirectory = 0 ∨
      (parent = true → back ≠ []) ∧ ∃ s'', Looks fat pid n e' name s' none s'')

/-- A piece that the cache does not have is looked up when all entries of the cache have references. -/
def Full (fat : Fat) (pid n : Nat) (parent : Bool) (e : Ptr) (s : State) (names : List CString) : Prop :=
  ∃ front name back e' s', names = front ++ name :: back ∧ Leads fat pid n e s front e' s' ∧
    (parent = true → back ≠ []) ∧ s'.egetHit e' (some name) = none ∧ s'.egetFree = none

/-- The pieces lead to `e`; with `parent` all but the last, `name`, do, and `e` is a directory. -/
def Finds (fat : Fat) (pid n : Nat) (parent : Bool) (e₀ : Ptr) (s : State) (names : List CString) (e : Ptr) (name : CString)
    (s' : State) : Prop :=
  if parent then ∃ front, names = front ++ [name] ∧ Leads fat pid n e₀ s front e s' ∧ (s'.dirents e).attr &&& attrDirectory ≠ 0
  else Leads fat pid n e₀ s names e s'

section Leads
variable {pid n : Nat} {parent : Bool} {e e' : Ptr} {s' : State} {name : CString} {names front : List CString}

theorem Looks.unique {r r' : Option Ptr} {s₁ s₂ : State} (h : Looks fat pid n e name s r s₁) (h' : Looks fat pid n e name s r' s₂) :
    r = r' ∧ s₁ = s₂ := by
  obtain ⟨o, t, hrun, hput⟩ := h.run
  obtain ⟨o', t', hrun', hput'⟩ := h'.run
  rw [hrun] at hrun'
  cases hrun'
  rw [hput] at hput'
  cases hput'
  exact ⟨rfl, rfl⟩

/-- A walk is part of every longer one. -/
theorem Leads.rest {back : List CString} {e'' : Ptr} {s'' : State} (h : Leads fat pid n e s front e' s')
    (h' : Leads fat pid n e s (front ++ back) e'' s'') : Leads fat pid n e' s' back e'' s'' := by
  induction h with
  | here => exact h'
  | step h _ ih =>
    cases h' with
    | step h₁ hw =>
      obtain ⟨he, rfl⟩ := h.unique h₁
      cases he
      exact ih hw

theorem Leads.unique {e'' : Ptr} {s'' : State} (h : Leads fat pid n e s names e' s') (h' : Leads fat pid n e s names e'' s'') :
    e' = e'' ∧ s' = s'' := by
  have hrest : Leads fat pid n e' s' [] e'' s'' := h.rest (by rwa [List.append_nil])
  cases hrest
  exact ⟨rfl, rfl⟩

theorem Fails.step {s₁ : State} (h : Looks fat pid n e name s (some e') s₁) (hf : Fails fat pid n parent e' s₁ names) :
    Fails fat pid n parent e s (name :: names) := by
  obtain ⟨front, name', back, e'', s'', rfl, hw, hend⟩ := hf
  exact ⟨name :: front, name', back, e'', s'', rfl, .step h hw, hend⟩

theorem Full.step {s₁ : State} (h : Looks fat pid n e name s (some e') s₁) (hf : Full fat pid n parent e' s₁ names) :
    Full fat pid n parent e s (name :: names) := by
  obtain ⟨front, name', back, e'', s'', rfl, hw, hend⟩ := hf
  exact ⟨name :: front, name', back, e'', s'', rfl, .step h hw, hend⟩

theorem Finds.step {s₁ : State} {e'' : Ptr} {last : CString} (h : Looks fat pid n e name s (some e') s₁)
    (hf : Finds fat pid n parent e' s₁ names e'' last s') : Finds fat pid n parent e s (name :: names) e'' last s' := by
  unfold Finds at hf ⊢
  cases parent with
  | true =>
    obtain ⟨front, rfl, hw, hdir⟩ := hf
    exact ⟨name :: front, rfl, .step h hw, hdir⟩
  | false => exact .step h hf

/-- What fails finds nothing. -/
theorem Fails.not_finds (hf : Fails fat pid n parent e s names) : ¬ Finds fat pid n parent e s names e' name s' := by
  obtain ⟨front, name', back, e₁, s₁, rfl, hw, hend⟩ := hf
  have hlooks : ∀ {e₂ : Ptr} {s₂ : State} {names : List CString}, ¬ ((s₁.dirents e₁).attr &&& attrDirectory = 0 ∨
      ∃ s'', Looks fat pid n e₁ name' s₁ none s'') ∨ ¬ Leads fat pid n e₁ s₁ (name' :: names) e₂ s₂ := by
    intro e₂ s₂ names
    by_cases hwalk : Leads fat pid n e₁ s₁ (name' :: names) e₂ s₂
    · refine .inl fun hno => ?_
      cases hwalk with
      | step h _ =>
        rcases hno with hdir | ⟨s'', hnone⟩
        · exact h.dir hdir
        · cases (h.unique hnone).1
    · exact .inr hwalk
  have hend' : (s₁.dirents e₁).attr &&& attrDirectory = 0 ∨ ∃ s'', Looks fat pid n e₁ name' s₁ none s'' :=
    hend.imp_right And.right
  intro hfinds
  unfold Finds at hfinds
  cases parent with
  | false => exact (hlooks.resolve_left (not_not_intro hend')) (hw.rest hfinds)
  | true =>
    obtain ⟨init, hinit, hwalk, hdir⟩ := hfinds
    rcases List.eq_nil_or_concat back with rfl | ⟨more, last, rfl⟩
    · -- the last piece itself
      obtain ⟨rfl, -⟩ := List.append_inj' hinit rfl
      obtain ⟨rfl, rfl⟩ := hw.unique hwalk
      rcases hend with hzero | hnone
      · exact hdir hzero
      · exact hnone.1 rfl rfl
    · have hsplit : init = front ++ name' :: more := by
        rw [List.concat_eq_append, ← List.cons_append, ← List.append_assoc] at hinit
        exact (List.append_inj' hinit rfl).1.symm
      rw [hsplit] at hwalk
      exact (hlooks.resolve_left (not_not_intro hend')) (hw.rest hwalk)

/-- Two walks end alike. -/
theorem Finds.unique {e'' : Ptr} {s'' : State} {last : CString} (h : Finds fat pid n parent e s names e' name s')
    (h' : Finds fat pid n parent e s names e'' last s'') : e' = e'' ∧ s' = s'' ∧ (parent = true → name = last) := by
  unfold Finds at h h'
  cases parent with
  | false =>
    obtain ⟨he, hs⟩ := Leads.unique h h'
    exact ⟨he, hs, fun hp => by cases hp⟩
  | true =>
    obtain ⟨front, rfl, hw, -⟩ := h
    obtain ⟨front', hfront, hw', -⟩ := h'
    obtain ⟨rfl, hlast⟩ := List.append_inj' hfront rfl
    obtain ⟨he, hs⟩ := hw.unique hw'
    cases hlast
    exact ⟨he, hs, fun _ => rfl⟩

end Leads

/-! ### `lookup_path` -/

section Lookups
variable {entry : Ptr} {pid n : Nat} (w : fat.Wf) (h₀ : Settled fat D s₀) (hn : entryCacheNum + 1 < n)

omit w in
theorem State.liveCount_le (s : State) : s.liveCount ≤ entryCacheNum + 1 := by
  have hcard : Fintype.card Ptr = entryCacheNum + 1 := rfl
  rw [← hcard]
  exact Finset.card_le_univ _

/-- The lock of a dirent is taken: it has a reference and nobody has the lock. -/
theorem Along.locked (h₀ : Settled fat D s₀) (pid : Nat) (h : Along D s₀ s (entry :: mine) fun _ => none) :
    (elock pid (some entry)).run s = .done () (s.setDirent entry fun d => { d with lock := some pid }) ∧
      Along D s₀ (s.setDirent entry fun d => { d with lock := some pid }) (entry :: mine)
        (Function.update (fun _ => none) entry (some pid)) := by
  have hpos := h.ref_pos h₀ List.mem_cons_self
  constructor
  · rw [run_elock, if_neg (by omega), if_pos (h.lock entry)]
  · exact h.aside rfl rfl rfl rfl rfl (h.cached_of id rfl rfl rfl rfl)

/-- And given back. -/
theorem Along.unlocked (h₀ : Settled fat D s₀) (h : Along D s₀ s mine (Function.update (fun _ => none) entry (some pid)))
    (hmem : entry ∈ mine) :
    (eunlock pid (some entry)).run s = .done () (s.setDirent entry fun d => { d with lock := none }) ∧
      Along D s₀ (s.setDirent entry fun d => { d with lock := none }) mine fun _ => none := by
  have hpos := h.ref_pos h₀ hmem
  constructor
  · exact run_eunlock s (by rw [h.lock, Function.update_self]) (by omega)
  · have := h.aside (e := entry) (f := fun d => { d with lock := none }) rfl rfl rfl rfl rfl
      (h.cached_of id rfl rfl rfl rfl)
    rwa [Function.update_idem, Function.update_eq_self] at this

/-- A locked dirent that is unlocked at once. -/
theorem Along.relock (h : Along D s₀ s mine fun _ => none) :
    ((s.setDirent entry fun d => { d with lock := some pid }).setDirent entry fun d => { d with lock := none }) = s := by
  rw [State.setDirent_setDirent, State.setDirent_eq_self]
  show ({ s.dirents entry with lock := none } : Dirent) = s.dirents entry
  rw [← h.lock entry]

variable (pid)
include w h₀ hn

/-- One piece. -/
theorem run_looks {name : CString} (hname : name ≠ []) (h : Along D s₀ s [entry] fun _ => none)
    (hvalid : (s.dirents entry).valid ≠ 0) (hdir : (s.dirents entry).attr &&& attrDirectory ≠ 0) :
    (∃ r o s₂ s', (dirlookup fat pid n entry name).run (s.setDirent entry fun d => { d with lock := some pid }) = .done (r, o) s₂ ∧
      (eunlock pid (some entry)).run s₂ = .done () (s₂.setDirent entry fun d => { d with lock := none }) ∧
      (eput fat pid n (some entry)).run (s₂.setDirent entry fun d => { d with lock := none }) = .done () s' ∧
      Looks fat pid n entry name s r s' ∧ (Along D s₀ s' r.toList fun _ => none) ∧ ∀ e ∈ r, (s'.dirents e).valid ≠ 0) ∨
    (dirlookup fat pid n entry name).run (s.setDirent entry fun d => { d with lock := some pid }) =
        .stopped (.panic "eget: insufficient ecache") ∧
      s.egetHit entry (some name) = none ∧ s.egetFree = none := by
  obtain ⟨-, hlocked⟩ := h.locked h₀ pid
  obtain ⟨s₁, hs₁⟩ : ∃ s₁, s.setDirent entry (fun d => { d with lock := some pid }) = s₁ := ⟨_, rfl⟩
  rw [hs₁] at hlocked ⊢
  have hd : s₁.dirents entry = { s.dirents entry with lock := some pid } := by
    rw [← hs₁, State.setDirent_same]
  rcases run_dirlookup w h₀ pid hname (n := n) (by omega) hlocked (by rw [hd]; exact hvalid) (by rw [hd]; exact hdir) with
    ⟨r, o, s₂, hrun, h₂, hvalid₂⟩ | ⟨hstop, hhit, hfree⟩
  · obtain ⟨hun, h₃⟩ := h₂.unlocked h₀ (by simp)
    have hfront : Along D s₀ _ (entry :: r.toList) fun _ => none := h₃.perm (List.perm_append_singleton ..)
    obtain ⟨s₄, hput, h₄, hvalid₄⟩ := run_eput h₀ pid n hfront ((State.liveCount_le _).trans_lt hn)
    refine .inl ⟨r, o, s₂, s₄, hrun, hun, hput, ⟨hdir, o, s₂, by rw [hs₁]; exact hrun, hput⟩, h₄, fun e he => ?_⟩
    rw [hvalid₄]
    by_cases hee : e = entry
    · subst hee
      rw [State.setDirent_same]
      exact hvalid₂ e he
    · rw [State.setDirent_ne _ _ _ _ hee]
      exact hvalid₂ e he
  · refine .inr ⟨hstop, ?_, ?_⟩
    · -- the lock is not looked at
      rw [← hhit, ← hs₁]
      unfold State.egetHit
      refine congrArg (Option.bind (some name)) (funext fun name => congrArg (s.lru.find? ·) (funext fun i => ?_))
      by_cases hi : Ptr.entry i = entry
      · rw [hi, State.setDirent_same]
      · rw [State.setDirent_ne _ _ _ _ hi]
    · rw [← hfree, ← hs₁]
      unfold State.egetFree
      refine congrArg (s.lru.reverse.find? ·) (funext fun i => ?_)
      by_cases hi : Ptr.entry i = entry
      · rw [hi, State.setDirent_same]
      · rw [State.setDirent_ne _ _ _ _ hi]

theorem run_lookupPathLoop (parent : Bool) (m : Nat) (path name : CString) (hm : path.length < m)
    (h : Along D s₀ s [entry] fun _ => none) (hvalid : (s.dirents entry).valid ≠ 0) :
    (∃ r s', (lookupPathLoop fat pid n parent m entry path name).run s = .done r s' ∧
      (Along D s₀ s' (r.map (·.1)).toList fun _ => none) ∧
      match r with
      | some (e, name) => Finds fat pid n parent entry s (pieces path) e (if parent then name else []) s'
      | none => parent = true ∧ pieces path = [] ∨ Fails fat pid n parent entry s (pieces path)) ∨
    (lookupPathLoop fat pid n parent m entry path name).run s = .stopped (.panic "eget: insufficient ecache") ∧
      Full fat pid n parent entry s (pieces path) := by
  induction m generalizing s entry path name with
  | zero => omega
  | succ m ih =>
    have hput := run_eput h₀ pid n h ((State.liveCount_le _).trans_lt hn)
    rw [lookupPathLoop]
    cases hskip : skipelem path with
    | none =>
      rw [skipelem_none hskip]
      cases parent with
      | false => exact .inl ⟨some (entry, name), s, rfl, h, .here _ _⟩
      | true =>
        obtain ⟨s', hput, h', -⟩ := hput
        refine .inl ⟨none, s', ?_, h', .inl ⟨rfl, rfl⟩⟩
        dsimp only
        rw [if_pos rfl, Prog.run_bind_done hput]
        rfl
    | some r =>
      obtain ⟨piece, rest⟩ := r
      obtain ⟨hpieces, hname, hlen, hrest⟩ := skipelem_some hskip
      obtain ⟨hlock, hlocked⟩ := h.locked h₀ pid
      obtain ⟨hun, -⟩ := hlocked.unlocked h₀ List.mem_cons_self
      rw [h.relock] at hun
      have hd : (s.setDirent entry fun d => { d with lock := some pid }).dirents entry =
          { s.dirents entry with lock := some pid } := State.setDirent_same ..
      rw [hpieces]
      dsimp only
      rw [Prog.run_bind_done hlock, Prog.run_bind_done (run_dirent ..), hd]
      by_cases hdir : (s.dirents entry).attr &&& attrDirectory = 0
      · obtain ⟨s', hput, h', -⟩ := hput
        refine .inl ⟨none, s', ?_, h', .inr ⟨[], piece, pieces rest, entry, s, rfl, .here _ _, .inl hdir⟩⟩
        rw [if_pos hdir, Prog.run_bind_done hun, Prog.run_bind_done hput]
        rfl
      · rw [if_neg hdir]
        by_cases hlast : parent = true ∧ rest = []
        · obtain ⟨rfl, rfl⟩ := hlast
          refine .inl ⟨some (entry, piece), s, ?_, h, [], ?_, .here _ _, hdir⟩
          · rw [if_pos ⟨rfl, rfl⟩, Prog.run_bind_done hun]
            rfl
          · rw [hrest.mp rfl]
            rfl
        · rw [if_neg hlast]
          have hback : parent = true → pieces rest ≠ [] := fun hp hr => hlast ⟨hp, hrest.mpr hr⟩
          rcases run_looks pid w h₀ hn hname h hvalid hdir with
            ⟨r, o, s₂, s', hrun, hun', hput', hlooks, h', hvalid'⟩ | ⟨hstop, hfull⟩
          · rw [Prog.run_bind_done hrun, Prog.run_bind_done hun', Prog.run_bind_done hput']
            cases r with
            | none =>
              exact .inl ⟨none, s', rfl, h', .inr ⟨[], piece, pieces rest, entry, s, rfl, .here _ _, .inr ⟨hback, s', hlooks⟩⟩⟩
            | some next =>
              rcases ih rest piece (by omega) h' (hvalid' next rfl) with ⟨r, s'', hrun', h'', hmeets⟩ | ⟨hstop, hfull⟩
              · refine .inl ⟨r, s'', hrun', h'', ?_⟩
                cases r with
                | some r => exact Finds.step hlooks hmeets
                | none =>
                  refine .inr ?_
                  rcases hmeets with ⟨hp, hnil⟩ | hfails
                  · exact absurd hnil (hback hp)
                  · exact Fails.step hlooks hfails
              · exact .inr ⟨hstop, Full.step hlooks hfull⟩
          · rw [Prog.run_bind, hstop]
            exact .inr ⟨rfl, [], piece, pieces rest, entry, s, rfl, .here _ _, hback, hfull⟩

end Lookups

/-! ### `ename` and `enameparent` -/

/-- Locks are as before, and handles are but for one on what is returned. -/
structure LeavesOne (s : State) (r : Option Ptr) (s' : State) : Prop where
  handles : ∀ e, s'.handles e = s.handles e + if r = some e then 1 else 0
  lock : ∀ e, (s'.dirents e).lock = (s.dirents e).lock

/-- Where a path starts. -/
def startOf (cwd : Ptr) (path : CString) : Ptr := if path.head? = some charSlash then .root else cwd

section Resolve
variable (fat : Fat) (pid n : Nat) (cwd : Ptr) (path : CString) (s : State)

/-- All pieces lead to what is returned; nothing is only if a piece fails or there is no path. -/
def EnameMeets : Prop :=
  ∃ r s', (ename fat pid n cwd path).run s = .done r s' ∧ LeavesOne s r s' ∧
    (∀ e, r = some e ↔ path ≠ [] ∧ Leads fat pid n (startOf cwd path) (s.addRef (startOf cwd path) 1) (pieces path) e s') ∧
    (r = none ↔ path = [] ∨ Fails fat pid n false (startOf cwd path) (s.addRef (startOf cwd path) 1) (pieces path))

/-- All pieces but the last do, which is returned as well. -/
def EnameparentMeets : Prop :=
  ∃ r s', (enameparent fat pid n cwd path).run s = .done r s' ∧ LeavesOne s (r.map (·.1)) s' ∧
    (∀ e name, r = some (e, name) ↔ path ≠ [] ∧
      Finds fat pid n true (startOf cwd path) (s.addRef (startOf cwd path) 1) (pieces path) e name s') ∧
    (r = none ↔ path = [] ∨ pieces path = [] ∨
      Fails fat pid n true (startOf cwd path) (s.addRef (startOf cwd path) 1) (pieces path))

/-- The kernel panics, the cache being full where a piece is looked up. -/
def FullStop {α : Type} (parent : Bool) (p : Fs α) : Prop :=
  p.run s = .stopped (.panic "eget: insufficient ecache") ∧ path ≠ [] ∧
    Full fat pid n parent (startOf cwd path) (s.addRef (startOf cwd path) 1) (pieces path)

end Resolve

section Resolve
variable {pid n : Nat} {cwd : Ptr} {path : CString}

theorem Along.leaves {s' : State} {r : Option Ptr} (h₀ : Settled fat D s) (h : Along D s s' r.toList fun _ => none) :
    LeavesOne s r s' := by
  constructor
  · intro e
    rw [h.handles]
    cases r with
    | none => simp
    | some e' =>
      rw [Option.toList_some, List.count_singleton]
      simp only [Option.some.injEq, beq_iff_eq]
      split_ifs <;> rfl
  · intro e
    rw [h.lock, h₀.lock]

variable (pid) in
theorem run_lookupPath (w : fat.Wf) (h₀ : Settled fat D s) (hcwd : cwd = .root ∨ 0 < s.handles cwd ∧ (s.dirents cwd).valid ≠ 0)
    (hn : entryCacheNum + 1 < n) (hpath : path ≠ []) (parent : Bool) :
    (∃ r s', (lookupPath fat pid n cwd path parent).run s = .done r s' ∧ LeavesOne s (r.map (·.1)) s' ∧
      match r with
      | some (e, name) => Finds fat pid n parent (startOf cwd path) (s.addRef (startOf cwd path) 1) (pieces path) e
          (if parent then name else []) s'
      | none => parent = true ∧ pieces path = [] ∨
          Fails fat pid n parent (startOf cwd path) (s.addRef (startOf cwd path) 1) (pieces path)) ∨
    FullStop fat pid n cwd path s parent (lookupPath fat pid n cwd path parent) := by
  have hstart : 0 < (s.dirents (startOf cwd path)).ref ∨ startOf cwd path = .root := by
    unfold startOf
    split_ifs
    · exact .inr rfl
    · rcases hcwd with hroot | ⟨hpos, -⟩
      · exact .inr hroot
      · refine .inl ?_
        rw [h₀.along.ref_eq]
        simp only [List.count_nil]
        omega
  have hvalid : (s.dirents (startOf cwd path)).valid ≠ 0 := by
    unfold startOf
    split_ifs
    · exact h₀.root.1
    · rcases hcwd with rfl | ⟨-, hv⟩
      · exact h₀.root.1
      · exact hv
  have hgrab := h₀.along.grab h₀ hstart
  have hrun : (lookupPath fat pid n cwd path parent).run s =
      (lookupPathLoop fat pid n parent (path.length + 1) (startOf cwd path) path []).run (s.addRef (startOf cwd path) 1) := by
    rw [lookupPath, if_neg hpath]
    rfl
  have hvalid' : ((s.addRef (startOf cwd path) 1).dirents (startOf cwd path)).valid ≠ 0 := by
    rw [State.addRef, State.setDirent_same]
    exact hvalid
  rcases run_lookupPathLoop pid w h₀ hn parent (path.length + 1) path [] (Nat.lt_succ_self _) hgrab hvalid' with
    ⟨r, s', hr, halong, hmeets⟩ | ⟨hstop, hfull⟩
  · exact .inl ⟨r, s', hrun.trans hr, halong.leaves h₀, hmeets⟩
  · exact .inr ⟨hrun.trans hstop, hpath, hfull⟩

theorem LeavesOne.refl (s : State) : LeavesOne s none s := ⟨fun _ => by simp, fun _ => rfl⟩

theorem ename_meets (w : fat.Wf) (h₀ : Settled fat D s) (hcwd : cwd = .root ∨ 0 < s.handles cwd ∧ (s.dirents cwd).valid ≠ 0)
    (hn : entryCacheNum + 1 < n) :
    EnameMeets fat pid n cwd path s ∨ FullStop fat pid n cwd path s false (ename fat pid n cwd path) := by
  by_cases hpath : path = []
  · subst hpath
    exact .inl ⟨none, s, rfl, .refl s, by simp, by simp⟩
  rcases run_lookupPath pid w h₀ hcwd hn hpath false with ⟨r, s', hrun, hleaves, hmeets⟩ | ⟨hstop, hfull⟩
  · refine .inl ⟨r.map (·.1), s', ?_, hleaves, ?_⟩
    · rw [ename, Prog.run_bind_done hrun]
      rfl
    · cases r with
      | none =>
        have hfails := hmeets.resolve_left fun h => by cases h.1
        refine ⟨fun e => ⟨fun he => (by cases he), fun he => ?_⟩, fun _ => .inr hfails, fun _ => rfl⟩
        have hno : ¬ Finds fat pid n false _ _ _ e [] s' := hfails.not_finds
        exact absurd he.2 hno
      | some r =>
        refine ⟨fun e => ⟨fun he => ?_, fun he => ?_⟩, fun he => (by cases he), fun he => ?_⟩
        · cases he
          exact ⟨hpath, hmeets⟩
        · exact congrArg some (Leads.unique hmeets he.2).1
        · exact absurd hmeets (he.resolve_left hpath).not_finds
  · refine .inr ⟨?_, hfull⟩
    rw [ename, Prog.run_bind, hstop]
    rfl

theorem enameparent_meets (w : fat.Wf) (h₀ : Settled fat D s)
    (hcwd : cwd = .root ∨ 0 < s.handles cwd ∧ (s.dirents cwd).valid ≠ 0) (hn : entryCacheNum + 1 < n) :
    EnameparentMeets fat pid n cwd path s ∨ FullStop fat pid n cwd path s true (enameparent fat pid n cwd path) := by
  by_cases hpath : path = []
  · subst hpath
    exact .inl ⟨none, s, rfl, .refl s, by simp, by simp⟩
  refine (run_lookupPath pid w h₀ hcwd hn hpath true).imp_left ?_
  rintro ⟨r, s', hrun, hleaves, hmeets⟩
  refine ⟨r, s', hrun, hleaves, ?_⟩
  cases r with
  | none =>
    refine ⟨fun e name => ⟨fun he => (by cases he), fun he => ?_⟩, fun _ => .inr (hmeets.imp_left And.right), fun _ => rfl⟩
    rcases hmeets with ⟨-, hnil⟩ | hfails
    · obtain ⟨front, hfront, -⟩ := he.2
      rw [hnil] at hfront
      simp at hfront
    · exact absurd he.2 hfails.not_finds
  | some r =>
    refine ⟨fun e name => ⟨fun he => ?_, fun he => ?_⟩, fun he => (by cases he), fun he => ?_⟩
    · cases he
      exact ⟨hpath, hmeets⟩
    · obtain ⟨heq, -, hname⟩ := Finds.unique hmeets he.2
      rw [← heq, ← hname rfl]
      rfl
    · rcases he.resolve_left hpath with hnil | hfails
      · obtain ⟨front, hfront, -⟩ := hmeets
        rw [hnil] at hfront
        simp at hfront
      · exact absurd hmeets hfails.not_finds

end Resolve

/-! A root directory of one file, and a cache full of its entries. -/

/-- The only directory is the root. -/
def gapDirs (c : Nat) : Option (List Nat × Layout) := if c = 2 then some ([2], gapLayout) else none

theorem gapDirs_dirs : Dirs oneClus gapDir.disk gapDirs := by
  have hD : ∀ {c l L}, gapDirs c = some (l, L) → c = 2 ∧ l = [2] ∧ L = gapLayout := by
    intro c l L h
    unfold gapDirs at h
    split_ifs at h with hc
    cases h
    exact ⟨hc, rfl, rfl⟩
  constructor
  · intro c l L h
    obtain ⟨rfl, rfl, rfl⟩ := hD h
    exact ⟨(dirAt_oneClus (by decide) (by decide) _).chain, rfl⟩
  · intro c l L h
    obtain ⟨rfl, rfl, rfl⟩ := hD h
    exact ⟨gapLayout_on, gapLayout_ends⟩
  · intro c l L h x hx hattr
    obtain ⟨rfl, rfl, rfl⟩ := hD h
    obtain rfl := List.mem_singleton.mp hx
    exact absurd (by decide) hattr

/-- Every slot of the cache has a file that somebody has open. -/
def fullCache : State :=
  { gapDir with
    dirents := fun e => match e with
      | .root => { gapDir.dirents .root with ref := 51 }
      | .entry _ => { Dirent.zero with filename := [0x42], attr := attrArchive, valid := 1, ref := 1, parent := some .root } }

theorem gapDir_settled : Settled oneClus gapDirs gapDir := by
  have hentry : ∀ i, gapDir.dirents (.entry i) = Dirent.zero := fun _ => rfl
  constructor
  · exact gapDirs_dirs
  · decide
  · intro e he hl
    cases e with
    | root => exact absurd rfl he
    | entry i =>
      have href : 0 < (gapDir.dirents (.entry i)).ref := hl.1
      rw [hentry] at href
      exact absurd href (by decide)
  · decide
  · intro i _ hv
    rw [hentry] at hv
    cases hv
  · decide
  · intro e hv _
    cases e with
    | root => exact ⟨[2], gapLayout, rfl, (dirAt_oneClus (by decide) (by decide) _).holds⟩
    | entry i =>
      rw [hentry] at hv
      cases hv

end Farron
