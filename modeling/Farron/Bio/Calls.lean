import Farron.Bio.Coherence

/-! Every call keeps the buffer cache coherent.

A judgement for each call says what the process has of which buffer when it returns
(`handles_call`); together they give what holds in all runs (`bcache_coherent`). -/
namespace Farron.Bio
open Resumption
variable {ι : Type} [Fintype ι] [DecidableEq ι]

/-! ### The calls -/

section Calls
variable {first : Site → Block} {i : ι} {t : Fin nbuf → Hand} {b : Fin nbuf}

/-- A judgement about a process with hands `t`. -/
abbrev Handles (first : Site → Block) (i : ι) {α : Type} (p : Code ι α) (t : Fin nbuf → Hand)
    (Q : α → (Fin nbuf → Hand) → Prop) : Prop :=
  Triple (Coherent first) (fun _ _ => True) (fun _ _ => True) (fun _ => True) i p t Q

/-- A section that changes what the process has of one buffer. -/
theorem handles_act {α : Type} {f : Bcache ι → Option (Bcache ι)} {k : Bcache ι → Code ι α}
    {Q : α → (Fin nbuf → Hand) → Prop}
    (h : ∀ s T s', Coherent first s T → T i = t → f s = some s' →
      ∃ x, Coherent first s' (grab T i b x) ∧ Handles first i (k s) (Function.update t b x) Q) :
    Handles first i (.act () f k) t Q := by
  intro s T s' hI ht _ hf
  obtain ⟨x, hI', hk⟩ := h s T s' hI ht hf
  refine ⟨trivial, Function.update t b x, ?_, hk⟩
  rw [← ht]
  exact hI'

/-- A section that only looks. -/
theorem handles_look {α : Type} {k : Bcache ι → Code ι α} {Q : α → (Fin nbuf → Hand) → Prop}
    (h : ∀ s T, Coherent first s T → T i = t → Handles first i (k s) t Q) : Handles first i (.act () some k) t Q := by
  intro s T s' hI ht _ hf
  cases hf
  refine ⟨trivial, t, ?_, h s T hI ht⟩
  rw [← ht, Function.update_eq_self]
  exact hI

theorem handles_acquiresleep (href : 0 < (t b).refs) :
    Handles first i (acquiresleep i b) t fun _ t' =>
      (t b).grip = none ∧ t' = Function.update t b { t b with grip := some .stale } := by
  apply handles_act (b := b)
  intro s T s' hI ht hf
  by_cases hlock : (s.bufs b).lock = none
  · rw [if_pos hlock] at hf
    cases hf
    have hfree : ∀ j, (T j b).grip = none := by
      intro j
      by_contra hg
      have := ((hI.buf b).lock j).mpr hg
      rw [hlock] at this
      cases this
    refine ⟨{ t b with grip := some .stale }, ?_, ?_, rfl⟩
    · rw [← ht]
      refine hI.regrip (by rw [ht]; exact href) (fun j _ => hfree j) rfl rfl rfl (fun hv _ => ?_) fun h => nomatch h
      refine (hI.buf b).valid hv fun j hd => ?_
      rw [hfree j] at hd
      cases hd
    · rw [← ht]
      exact hfree i
  · rw [if_neg hlock] at hf
    cases hf

/-- A buffer with one more reference. -/
def Hand.lease (x : Hand) (p : Site) (g : Option Grip) : Hand := ⟨x.refs + 1, p, g⟩

theorem handles_bget (p : Site) :
    Handles first i (bget i p) t fun b t' =>
      (t b).grip = none ∧ t' = Function.update t b ((t b).lease p (some .stale)) := by
  intro s T s' hI ht _ hf
  cases hf
  cases hget : s.get p with
  | none =>
    refine ⟨trivial, t, ?_, ?_⟩
    · rw [← ht, Function.update_eq_self]
      exact hI
    · simp only [hget]
      trivial
  | some r =>
    obtain ⟨b, s'⟩ := r
    refine ⟨trivial, Function.update t b ((t b).lease p (t b).grip), ?_, ?_⟩
    · rw [← ht]
      exact hI.get hget
    · simp only [hget]
      show Handles first i (acquiresleep i b >>= fun _ => .ret b) _ _
      apply Triple.bind (handles_acquiresleep (by rw [Function.update_self]; exact Nat.succ_pos _))
      intro _ t' ht'
      obtain ⟨hgrip, rfl⟩ := ht'
      rw [Function.update_self] at hgrip
      refine ⟨hgrip, ?_⟩
      rw [Function.update_idem, Function.update_self]
      rfl

/-- What the holder of a buffer may do to it: from grip `g` to grip `g'`, the disk's sector
being `onDisk`. -/
structure Allowed (i : ι) (g : Grip) (g' : Option Grip) (onDisk : Block) (x x' : Buf ι) : Prop where
  refcnt : x'.refcnt = x.refcnt
  site : x'.site = x.site
  lock : x'.lock = if g' = none then none else some i
  valid : x'.valid = true → g' ≠ some .dirty → x'.data = onDisk
  clean : g' = some .clean → x'.data = onDisk

/-- The holder of the buffer changes it. -/
theorem handles_change {α : Type} {k : Code ι α} {Q : α → (Fin nbuf → Hand) → Prop} {g : Grip} (g' : Option Grip)
    (f : Block → Buf ι → Buf ι) (hgrip : (t b).grip = some g)
    (hf : ∀ x onDisk, x.lock = some i → (x.valid = true → g ≠ .dirty → x.data = onDisk) →
      (g = .clean → x.data = onDisk) → Allowed i g g' onDisk x (f onDisk x))
    (hk : Handles first i k (Function.update t b { t b with grip := g' }) Q) :
    Handles first i (.act () (fun s => some (s.setBuf b fun x => f (s.disk x.site) x)) fun _ => k) t Q := by
  apply handles_act (b := b)
  intro s T s' hI ht hs
  cases hs
  have hb := hI.buf b
  have hi : (T i b).grip = some g := by
    rw [ht]
    exact hgrip
  have hne : (T i b).grip ≠ none := by
    rw [hi]
    exact fun h => nomatch h
  have hallowed := hf (s.bufs b) (s.disk (s.bufs b).site) ((hb.lock i).mpr hne) ?_ ?_
  · refine ⟨{ t b with grip := g' }, ?_, hk⟩
    rw [← ht]
    exact hI.regrip (hb.held i hne) (fun j hj => hb.holder hne hj) hallowed.refcnt hallowed.site hallowed.lock
      hallowed.valid hallowed.clean
  · intro hv hd
    apply hb.valid hv
    intro j hj
    by_cases hji : j = i
    · subst hji
      rw [hi] at hj
      exact hd (Option.some.inj hj)
    · rw [hb.holder hne hji] at hj
      cases hj
  · intro hc
    apply hb.clean i
    rw [hi, hc]

theorem handles_holdingsleep {α : Type} {k : Bool → Code ι α} {Q : α → (Fin nbuf → Hand) → Prop} (hgrip : (t b).grip ≠ none)
    (hk : Handles first i (k true) t Q) : Handles first i (holdingsleep i b >>= k) t Q := by
  apply handles_look
  intro s T hI ht
  have hlock : (s.bufs b).lock = some i := by
    rw [(hI.buf b).lock i, ht]
    exact hgrip
  show Handles first i (k (decide ((s.bufs b).lock = some i))) t Q
  rw [decide_eq_true hlock]
  exact hk

theorem handles_bread (p : Site) :
    Handles first i (bread i p) t fun b t' =>
      (t b).grip = none ∧ t' = Function.update t b ((t b).lease p (some .clean)) := by
  apply Triple.bind (handles_bget p)
  intro b t₁ ht₁
  obtain ⟨hgrip, rfl⟩ := ht₁
  have hb : Function.update t b ((t b).lease p (some .stale)) b = (t b).lease p (some .stale) := Function.update_self ..
  have hclean : Function.update (Function.update t b ((t b).lease p (some .stale))) b
      { Function.update t b ((t b).lease p (some .stale)) b with grip := some .clean } =
        Function.update t b ((t b).lease p (some .clean)) := by
    rw [Function.update_idem, hb]
    rfl
  have hdone : Handles first i (.ret b : Code ι (Fin nbuf)) (Function.update t b ((t b).lease p (some .clean)))
      fun b t' => (t b).grip = none ∧ t' = Function.update t b ((t b).lease p (some .clean)) :=
    ⟨hgrip, rfl⟩
  apply handles_act (b := b)
  intro s T s' hI ht hs
  cases hs
  have hself : Function.update s.bufs b (s.bufs b) = s.bufs := Function.update_eq_self b s.bufs
  have hi : T i b = (t b).lease p (some .stale) := by
    rw [ht, hb]
  have hne : (T i b).grip ≠ none := by
    rw [hi]
    exact fun h => nomatch h
  have hbuf := hI.buf b
  by_cases hvalid : (s.bufs b).valid = false
  · -- the sector is read
    refine ⟨(t b).lease p (some .stale), ?_, ?_⟩
    · rw [← hi]
      unfold grab
      rw [Function.update_eq_self, Function.update_eq_self]
      exact hI
    · show Handles first i (if (s.bufs b).valid = false then _ else _) _ _
      rw [if_pos hvalid, Function.update_idem]
      refine handles_change (b := b) (g := .stale) (some .clean) (fun d x => { x with data := d }) (by rw [hb]; rfl) ?_ ?_
      · exact fun x d hl _ _ => ⟨rfl, rfl, hl, fun _ _ => rfl, fun _ => rfl⟩
      · rw [hclean]
        refine handles_change (b := b) (g := .clean) (some .clean) (fun _ x => { x with valid := true })
          (by rw [Function.update_self]; rfl) ?_ ?_
        · exact fun x d hl _ hc => ⟨rfl, rfl, hl, fun _ _ => hc rfl, fun _ => hc rfl⟩
        · rw [Function.update_idem, Function.update_self]
          exact hdone
  · refine ⟨(t b).lease p (some .clean), ?_, ?_⟩
    · have hdata : (s.bufs b).data = s.disk (s.bufs b).site := by
        apply hbuf.valid (Bool.eq_true_of_not_eq_false hvalid)
        intro j hj
        by_cases hji : j = i
        · subst hji
          rw [hi] at hj
          cases hj
        · rw [hbuf.holder hne hji] at hj
          cases hj
      have hre := hI.regrip (x := s.bufs b) (g := some .clean) (hbuf.held i hne) (fun j hj => hbuf.holder hne hj) rfl rfl
        ((hbuf.lock i).mpr hne) (fun _ _ => hdata) fun _ => hdata
      rw [hself, hi] at hre
      exact hre
    · show Handles first i (if (s.bufs b).valid = false then _ else _) _ _
      rw [if_neg hvalid, Function.update_idem]
      exact hdone

theorem handles_bwrite (hgrip : (t b).grip ≠ none) :
    Handles first i (bwrite i b) t fun _ t' => t' = Function.update t b { t b with grip := some .clean } := by
  apply handles_holdingsleep hgrip
  apply handles_act (b := b)
  intro s T s' hI ht hs
  cases hs
  refine ⟨{ t b with grip := some .clean }, ?_, rfl⟩
  rw [← ht] at hgrip ⊢
  exact hI.diskWrite hgrip

theorem handles_brelse (hgrip : (t b).grip = some .clean) (hrefs : (t b).refs = 1) :
    Handles first i (brelse i b) t fun _ t' => t' = Function.update t b ⟨0, noSite, none⟩ := by
  apply handles_holdingsleep (by rw [hgrip]; exact fun h => nomatch h)
  refine handles_change (b := b) (g := .clean) none (fun _ x => { x with lock := none }) hgrip ?_ ?_
  · exact fun x d _ _ hc => ⟨rfl, rfl, rfl, fun _ _ => hc rfl, fun h => nomatch h⟩
  apply handles_act (b := b)
  intro s T s' hI ht hs
  cases hs
  refine ⟨⟨0, noSite, none⟩, hI.put ?_ ⟨rfl, rfl⟩, ?_⟩
  · rw [ht, Function.update_self]
    exact ⟨hrefs, rfl⟩
  · rw [Function.update_idem]
    rfl

/-- What an idle process with leases `l` has. -/
def Leases.hands (l : Leases) (b : Fin nbuf) : Hand :=
  match l b with
  | none => ⟨0, noSite, none⟩
  | some x => ⟨1, x.site, some (if x.dirty then .dirty else .clean)⟩

theorem hands_update (l : Leases) (b : Fin nbuf) (o : Option Lease) :
    Leases.hands (Function.update l b o) = Function.update l.hands b
      (match o with
        | none => ⟨0, noSite, none⟩
        | some x => ⟨1, x.site, some (if x.dirty then .dirty else .clean)⟩) := by
  funext c
  by_cases hc : c = b
  · subst hc
    rw [Function.update_self]
    unfold Leases.hands
    rw [Function.update_self]
  · rw [Function.update_of_ne hc]
    unfold Leases.hands
    rw [Function.update_of_ne hc]

theorem hands_some {l : Leases} {x : Lease} (h : l b = some x) :
    l.hands b = ⟨1, x.site, some (if x.dirty then .dirty else .clean)⟩ := by
  unfold Leases.hands
  rw [h]

theorem handles_call (l : Leases) (c : Call) (hc : c.enabled l) :
    Handles first i (c.body i l) l.hands fun l' t' => t' = l'.hands := by
  cases c with
  | bread p =>
    apply Triple.bind (handles_bread p)
    intro b t' ht'
    obtain ⟨hgrip, rfl⟩ := ht'
    show _ = Leases.hands (Function.update l b (some ⟨p, false⟩))
    rw [hands_update]
    cases hl : l b with
    | none =>
      unfold Hand.lease Leases.hands
      rw [hl]
      rfl
    | some x =>
      rw [hands_some hl] at hgrip
      cases hgrip
  | edit b f =>
    obtain ⟨x, hx⟩ := Option.ne_none_iff_exists'.mp hc
    refine handles_change (b := b) (g := if x.dirty then .dirty else .clean) (some .dirty) (fun _ y => { y with data := f y.data })
      (by rw [hands_some hx]) ?_ ?_
    · exact fun y d hl _ _ => ⟨rfl, rfl, hl, fun _ h => absurd rfl h, fun h => nomatch h⟩
    · show _ = (l.mark b true).hands
      unfold Leases.mark
      rw [hands_update, hx, hands_some hx]
      rfl
  | bwrite b =>
    obtain ⟨x, hx⟩ := Option.ne_none_iff_exists'.mp hc
    apply Triple.bind (handles_bwrite (by rw [hands_some hx]; exact fun h => nomatch h))
    intro _ t' ht'
    subst ht'
    show _ = (l.mark b false).hands
    unfold Leases.mark
    rw [hands_update, hx, hands_some hx]
    rfl
  | brelse b =>
    obtain ⟨p, hp⟩ := hc
    apply Triple.bind (handles_brelse (by rw [hands_some hp]; rfl) (by rw [hands_some hp]))
    intro _ t' ht'
    subst ht'
    show _ = Leases.hands (Function.update l b none)
    rw [hands_update]

end Calls

/-! ### All runs -/

omit [Fintype ι] in
/-- A section keeps the site of a buffer in use. -/
def Keep (_ : Unit) (s s' : Bcache ι) : Prop := ∀ b, 0 < (s.bufs b).refcnt → (s'.bufs b).site = (s.bufs b).site

omit [Fintype ι] [DecidableEq ι] in
theorem keep_setBuf (s : Bcache ι) (b : Fin nbuf) (f : Buf ι → Buf ι)
    (hf : 0 < (s.bufs b).refcnt → (f (s.bufs b)).site = (s.bufs b).site) : Keep () s (s.setBuf b f) := by
  intro c hc
  show (Function.update s.bufs b (f (s.bufs b)) c).site = _
  by_cases hcb : c = b
  · subst hcb
    rw [Function.update_self]
    exact hf hc
  · rw [Function.update_of_ne hcb]

omit [Fintype ι] [DecidableEq ι] in
theorem keep_get {s s' : Bcache ι} {p : Site} {b : Fin nbuf} (hget : s.get p = some (b, s')) : Keep () s s' := by
  unfold Bcache.get at hget
  cases hcached : s.cached p with
  | some c =>
    rw [hcached] at hget
    cases hget
    exact keep_setBuf s b _ fun _ => rfl
  | none =>
    rw [hcached] at hget
    cases hunused : s.unused with
    | none =>
      rw [hunused] at hget
      cases hget
    | some c =>
      rw [hunused] at hget
      cases hget
      have hzero : (s.bufs b).refcnt = 0 := by
        have := List.find?_some hunused
        exact of_decide_eq_true this
      apply keep_setBuf
      intro hpos
      rw [hzero] at hpos
      exact absurd hpos (Nat.lt_irrefl 0)

omit [Fintype ι] [DecidableEq ι] in
theorem within_acquiresleep (i : ι) (b : Fin nbuf) : (acquiresleep i b).Within Keep fun _ => True := by
  refine ⟨fun s s' hf => ?_, fun _ => trivial⟩
  change (if (s.bufs b).lock = none then _ else _) = _ at hf
  by_cases hlock : (s.bufs b).lock = none
  · rw [if_pos hlock] at hf
    cases hf
    exact keep_setBuf s b _ fun _ => rfl
  · rw [if_neg hlock] at hf
    cases hf

omit [Fintype ι] [DecidableEq ι] in
theorem within_bread (i : ι) (p : Site) : (bread i p).Within Keep fun _ => True := by
  apply Prog.Within.bind
  · refine ⟨fun s s' hf => ?_, fun s => ?_⟩
    · cases hf
      cases hget : s.get p with
      | none => exact fun _ _ => rfl
      | some r => exact keep_get hget
    · cases hget : s.get p with
      | none =>
        simp only [hget]
        trivial
      | some r =>
        simp only [hget]
        exact (within_acquiresleep i r.1).bind fun _ => trivial
  · intro b
    apply Prog.Within.look () _ fun _ _ _ => rfl
    intro s
    show Prog.Within _ _ (if (s.bufs b).valid = false then _ else _)
    by_cases hvalid : (s.bufs b).valid = false
    · rw [if_pos hvalid]
      refine Prog.Within.bind (Prog.Within.change () _ fun s => keep_setBuf s b _ fun _ => rfl) fun _ => ?_
      exact Prog.Within.bind (Prog.Within.change () _ fun s => keep_setBuf s b _ fun _ => rfl) fun _ => trivial
    · rw [if_neg hvalid]
      trivial

omit [Fintype ι] in
theorem within_holdingsleep {α : Type} (i : ι) (b : Fin nbuf) {k : Code ι α} (hk : k.Within Keep fun _ => True)
    (msg : String) :
    Prog.Within Keep (fun _ => True) (holdingsleep i b >>= fun r => if r = true then k else .stop (.panic msg)) := by
  have hlook : (holdingsleep i b).Within Keep fun _ => True :=
    ⟨fun s s' hs c _ => by cases hs; rfl, fun _ => trivial⟩
  apply hlook.bind
  intro r
  cases r with
  | true => exact hk
  | false => trivial

omit [Fintype ι] in
theorem within_call (i : ι) (l : Leases) (c : Call) : (c.body i l).Within Keep fun _ => True := by
  cases c with
  | bread p => exact (within_bread i p).bind fun _ => trivial
  | edit b f => exact Prog.Within.bind (Prog.Within.change () _ fun s => keep_setBuf s b _ fun _ => rfl) fun _ => trivial
  | bwrite b =>
    refine Prog.Within.bind (within_holdingsleep i b ?_ _) fun _ => trivial
    exact Prog.Within.change () _ fun s _ _ => rfl
  | brelse b =>
    refine Prog.Within.bind (within_holdingsleep i b ?_ _) fun _ => trivial
    refine Prog.Within.bind (Prog.Within.change () _ fun s => keep_setBuf s b _ fun _ => rfl) fun _ => ?_
    refine Prog.Within.change () _ fun s => ?_
    have hset := keep_setBuf s b (fun x => { x with refcnt := x.refcnt - 1 }) fun _ => rfl
    unfold Bcache.put
    by_cases hzero : ((s.setBuf b fun x => { x with refcnt := x.refcnt - 1 }).bufs b).refcnt = 0
    · rw [if_pos hzero]
      exact hset
    · rw [if_neg hzero]
      exact hset

omit [DecidableEq ι] in
theorem coherent_start (disk : Site → Block) (data : Fin nbuf → Block) :
    Coherent disk (binit (ι := ι) disk data) fun _ => Leases.hands fun _ => none where
  buf b := by
    refine ⟨?_, fun i hi => absurd hi (Nat.lt_irrefl 0), fun i => ⟨fun h => (nomatch h), fun h => absurd rfl h⟩,
      fun i hi => absurd rfl hi, fun hv => (nomatch hv), fun i hi => nomatch hi⟩
    exact (Finset.sum_const_zero).symm
  all b := by
    apply List.mem_reverse.mpr
    exact List.mem_finRange b
  nodup := List.nodup_reverse.mpr (List.nodup_finRange nbuf)
  sorted := ⟨fun _ => True, fun b _ => ⟨rfl, rfl, rfl⟩, List.pairwise_of_forall_mem_list fun _ _ _ _ _ => trivial⟩
  disk p := rfl

theorem coherent {disk : Site → Block} {data : Fin nbuf → Block} {g : Config Unit Stop (Bcache ι) ι Leases}
    (h : Reach (client ι) (fun _ _ => True) (start disk data) g) :
    ∃ T, Coherent disk g.shared T ∧ ∀ i l, g.thread i = .ret l → T i = l.hands := by
  have hstart : Covered (Coherent disk) (fun _ _ => True) (fun _ _ => True) (fun _ => True)
      (fun (l : Leases) t => t = l.hands) (start (ι := ι) disk data) :=
    ⟨fun _ => Leases.hands fun _ => none, coherent_start disk data, fun i => Triple.ret rfl⟩
  obtain ⟨T, hI, hT⟩ := Reach.sound (fun i l c t hc ht => by subst ht; exact handles_call l c hc)
    (fun _ _ _ _ _ _ _ _ _ _ _ _ hp => False.elim hp) hstart h
  exact ⟨T, hI, fun i l hi => Covered.idle hT hi⟩

/-- **The buffer cache is coherent.** (a) Of two buffers with one site one was never used,
and the site is then `binit`'s; (b) a buffer in use keeps its site; (c) a valid buffer that
nobody holds is the disk's sector; and a buffer that a process got for a site, and has not
changed since it last wrote it, holds the block written last to the site, or its first
content. -/
theorem bcache_coherent {disk : Site → Block} {data : Fin nbuf → Block} {g : Config Unit Stop (Bcache ι) ι Leases}
    (h : Reach (client ι) (fun _ _ => True) (start disk data) g) :
    (∀ b c, b ≠ c → (g.shared.bufs b).site = (g.shared.bufs c).site →
      (g.shared.bufs b).Untouched ∨ (g.shared.bufs c).Untouched) ∧
    (∀ g', Step (client ι) (fun _ _ => True) g g' → ∀ b, 0 < (g.shared.bufs b).refcnt →
      (g'.shared.bufs b).site = (g.shared.bufs b).site) ∧
    (∀ b, (g.shared.bufs b).valid = true → (g.shared.bufs b).lock = none →
      (g.shared.bufs b).data = g.shared.disk (g.shared.bufs b).site) ∧
    (∀ p, g.shared.disk p = latest disk g.shared.log p) ∧
    ∀ i l b x, g.thread i = .ret l → l b = some x → 0 < (g.shared.bufs b).refcnt ∧ (g.shared.bufs b).site = x.site ∧
      (x.dirty = false → (g.shared.bufs b).data = latest disk g.shared.log x.site) := by
  obtain ⟨T, hI, hT⟩ := coherent h
  refine ⟨fun b c hne he => hI.unique hne he, fun g' hs b hb => ?_, fun b hv hlock => ?_, hI.disk, fun i l b x hi hx => ?_⟩
  · have hw : ∀ i, (g.thread i).Within Keep fun _ => True :=
      Reach.within (fun i l c => within_call i l c) (fun i => Prog.within_ret fun _ => none) h
    obtain he | ⟨_, hk⟩ := hs.within hw
    · rw [he]
    · exact hk b hb
  · apply (hI.buf b).valid hv
    intro j hj
    have := ((hI.buf b).lock j).mpr (by rw [hj]; exact fun h => nomatch h)
    rw [hlock] at this
    cases this
  · have hhand : T i b = ⟨1, x.site, some (if x.dirty then .dirty else .clean)⟩ := by
      rw [hT i l hi, hands_some hx]
    have hsite : (g.shared.bufs b).site = x.site := by
      rw [(hI.buf b).site i (by rw [hhand]; exact Nat.one_pos), hhand]
    refine ⟨?_, hsite, fun hd => ?_⟩
    · have := (hI.buf b).refs_le i
      rw [hhand] at this
      exact this
    · rw [← hsite, ← hI.disk]
      apply (hI.buf b).clean i
      rw [hhand, hd]
      rfl

/-! ### A run -/

instance (l : Leases) : (c : Call) → Decidable ((client ι).enabled l c)
  | .bread _ => inferInstanceAs (Decidable True)
  | .edit b _ | .bwrite b => inferInstanceAs (Decidable (l b ≠ none))
  | .brelse b =>
    match h : l b with
    | some ⟨p, false⟩ => isTrue ⟨p, h⟩
    | some ⟨_, true⟩ => isFalse fun ⟨_, hp⟩ => by
      rw [h] at hp
      cases hp
    | none => isFalse fun ⟨_, hp⟩ => by
      rw [h] at hp
      cases hp

instance (l l' k k' : Leases) : Decidable ((client ι).pass l l' k k') := inferInstanceAs (Decidable False)

instance : NeZero nbuf := ⟨by decide⟩

/-- A process writes sector 5 while another waits for it. -/
def twoReaders : List (Move (Fin 2) Leases Call) :=
  [.begin 0 (.bread (0, 5)), .acts 0 5, .begin 1 (.bread (0, 5)), .acts 1 1, .begin 0 (.edit 0 fun _ _ => 7), .acts 0 1,
    .begin 0 (.bwrite 0), .acts 0 2, .begin 0 (.brelse 0), .acts 0 3, .acts 1 2]

theorem bcache_coherent_twoReaders : ∃ g, Reach (client (Fin 2)) (fun _ _ => True)
    (start (fun _ _ => 0) fun _ _ => 0) g ∧ (g.shared.bufs 0).lock = some 1 ∧ (g.shared.bufs 0).data 0 = 7 ∧
      ∀ p, g.shared.disk p = latest (fun _ _ => 0) g.shared.log p := by
  have hplay : ∃ g, Reach (client (Fin 2)) (fun _ _ => True) (start (fun _ _ => 0) fun _ _ => 0) g ∧
      (g.shared.bufs 0).lock = some 1 ∧ (g.shared.bufs 0).data 0 = 7 := Reach.of_play twoReaders (by decide +kernel)
  obtain ⟨g, hg, hlock, hdata⟩ := hplay
  exact ⟨g, hg, hlock, hdata, (bcache_coherent hg).2.2.2.1⟩

end Farron.Bio
