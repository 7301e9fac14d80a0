import Farron.Fat.Carving

/-! What growth, creation and truncation keep, section by section.

One triple for each function: the cursor functions of `reloc_clus` (`Moved`), a
write, a record, the creation of a directory, a truncation. -/
namespace Farron
open Resumption Chains
variable {fat : Fat} {ι : Type} [DecidableEq ι] {pid : ι → Nat} {live : Ptr → Prop}
  {own₀ : Nat → List Nat} {i : ι} {t : Token} {e : Ptr} {d : Dirent} {l : List Nat}

/-- The chain of `e` may have grown, and its cursor is at cluster `k`. -/
def Moved (fat : Fat) (t t' : Token) (e : Ptr) (d : Dirent) (l : List Nat) (k : Nat) : Prop :=
  ∃ c new, t' = t.hold e { d with curClus := c, clusCnt := k } (l ++ new) ∧ t'.Calm ∧
    t'.Holding fat e { d with curClus := c, clusCnt := k } (l ++ new) ∧ (l ++ new)[k]? = some c

theorem Moved.trans {t' t'' : Token} {c k k' : Nat} {new : List Nat}
    (h : Moved fat t' t'' e { d with curClus := c, clusCnt := k' } (l ++ new) k)
    (ht' : t' = t.hold e { d with curClus := c, clusCnt := k' } (l ++ new)) : Moved fat t t'' e d l k := by
  obtain ⟨c', new', heq, hcalm, hhold, hc⟩ := h
  rw [ht', Token.hold_hold, List.append_assoc] at heq
  rw [List.append_assoc] at hhold hc
  exact ⟨c', new ++ new', heq, hcalm, hhold, hc⟩

/-- Nothing has moved, as the cursor is there already. -/
theorem Moved.stay (ht : t.Calm) (hh : t.Holding fat e d l) (hne : l ≠ []) {k : Nat}
    (hk : d.clusCnt = k) : Moved fat t t e d l k := by
  subst hk
  refine ⟨d.curClus, [], ?_, ht, ?_, ?_⟩
  · rw [List.append_nil]
    exact (Token.hold_self hh.held).symm
  · rw [List.append_nil]
    exact hh
  · rw [List.append_nil]
    exact hh.holds.cursor hne

/-- The cursor moves to the next cluster, which may be one of those the chain has grown
by. -/
theorem keeps_advance (ht : t.Calm) (hh : t.Holding fat e d l) (hne : l ≠ []) {new : List Nat} {c k : Nat}
    (hk : d.clusCnt + 1 = k) (hk32 : k < 2 ^ 32) (hin : ∀ c ∈ l ++ new, fat.InRange c)
    (hc : (l ++ new)[k]? = some c) :
    Keeps fat pid live own₀ i
      (assign e fun d => { d with curClus := c, clusCnt := u32 (d.clusCnt + 1) })
      (t.hold e d (l ++ new)) fun _ t' =>
        t' = t.hold e { d with curClus := c, clusCnt := k } (l ++ new) ∧ t'.Calm ∧
          t'.Holding fat e { d with curClus := c, clusCnt := k } (l ++ new) := by
  have hfirst : d.firstClus = (l ++ new).headD 0 := by
    obtain ⟨c₀, rest, rfl⟩ := List.exists_cons_of_ne_nil hne
    exact hh.holds.first
  have hholds : Holds { d with curClus := c, clusCnt := k } (l ++ new) := ⟨hfirst, fun _ => hc⟩
  have hk' : u32 (d.clusCnt + 1) = k := by rw [hk, u32_of_lt hk32]
  have hcalm : (t.hold e { d with curClus := c, clusCnt := k } (l ++ new)).Calm := ht.hold hholds
  apply Triple.mono (keeps_assign (Token.hold_held_same ..) rfl _)
  · intro _ t' ht'
    rw [Token.hold_hold, hk'] at ht'
    rw [ht']
    exact ⟨rfl, hcalm, ⟨Token.hold_held_same .., hholds, hin⟩⟩
  · rw [Token.hold_hold, hk']
    exact hcalm.shape

section Cursor
variable (w : fat.Wf)
include w

/-- Forward to cluster `k`, by the clusters there are and new ones. -/
theorem keeps_relocForward {k : Nat} (hk32 : k < 2 ^ 32) (n : Nat) {t : Token} {d : Dirent} {l : List Nat}
    (ht : t.Calm) (hh : t.Holding fat e d l) (hne : l ≠ []) (hle : d.clusCnt ≤ k) (hn : k - d.clusCnt ≤ n) :
    Keeps fat pid live own₀ i (relocForward fat e k true n) t fun r t' =>
      r = true ∧ Moved fat t t' e d l k := by
  induction n generalizing t d l with
  | zero => exact Triple.ret ⟨rfl, .stay ht hh hne (by omega)⟩
  | succ n ih =>
    simp only [relocForward]
    apply Triple.bind (keeps_dirent hh.held)
    intro d₁ t₁ h₁
    obtain ⟨rfl, rfl⟩ := h₁
    by_cases hj : k > d₁.clusCnt
    · have hcur := hh.holds.cursor hne
      rw [if_pos hj]
      apply Triple.bind (keeps_readFatAt w _ hcur (hh.inRange _ (List.mem_of_getElem? hcur))
        (held_owned hh.held))
      intro v t₂ h₂
      obtain ⟨rfl, hstep, hlast, s, hv, hC⟩ := h₂
      have hsmall : v < 2 ^ 31 := by
        rw [hv]
        exact hC.2
      rw [int32_of_lt hsmall]
      cases hd : l[d₁.clusCnt + 1]? with
      | some c =>
        have hvc := hstep c hd
        have hcr := hh.inRange c (List.mem_of_getElem? hd)
        have hlt := w.inRange_lt hcr
        rw [if_neg (by omega), hvc]
        have hself : t₂ = t₂.hold e d₁ (l ++ []) := by
          rw [List.append_nil]
          exact (Token.hold_self hh.held).symm
        rw [hself]
        apply Triple.bind (keeps_advance ht hh hne rfl (by omega) (by simpa using hh.inRange) (by simpa using hd))
        intro _ t₃ h₃
        obtain ⟨heq, hcalm, hhold⟩ := h₃
        apply Triple.mono (ih hcalm hhold (by simp [hne]) (by simp; omega) (by simp; omega))
        intro r t₄ h₄
        rw [← hself]
        exact ⟨h₄.1, h₄.2.trans heq⟩
      | none =>
        have hge := hlast hd
        have hlen : d₁.clusCnt + 1 = l.length := by
          have h1 := (List.getElem?_eq_some_iff.mp hcur).1
          have h2 := List.getElem?_eq_none_iff.mp hd
          omega
        rw [if_pos (by omega), if_pos trivial]
        apply Triple.bind (keeps_allocClus w ht)
        intro new t₃ h₃
        obtain ⟨rfl, hnew⟩ := h₃
        have hh₃ : ({ t₂ with loose := [new] } : Token).Holding fat e d₁ l := ⟨hh.held, hh.holds, hh.inRange⟩
        apply Triple.bind (keeps_link w hh₃ ht.phase hcur hlen rfl hnew ht.firsts)
        intro _ t₄ h₄
        have heq₄ : t₄ = t₂.hold e d₁ (l ++ [new]) := by
          rw [h₄]
          unfold Token.hold
          rw [ht.loose]
        rw [heq₄]
        have hin : ∀ c ∈ l ++ [new], fat.InRange c := by
          intro c hc
          rcases List.mem_append.mp hc with hm | hm
          · exact hh.inRange c hm
          · rw [List.mem_singleton.mp hm]
            exact hnew
        apply Triple.bind (keeps_advance ht hh hne rfl (by omega) hin (by simp [hlen]))
        intro _ t₅ h₅
        obtain ⟨heq, hcalm, hhold⟩ := h₅
        apply Triple.mono (ih hcalm hhold (by simp) (by simp; omega) (by simp; omega))
        intro r t₆ h₆
        exact ⟨h₆.1, h₆.2.trans heq⟩
    · rw [if_neg hj]
      exact Triple.ret ⟨rfl, .stay ht hh hne (by omega)⟩

/-- From the start again to cluster `k`. -/
theorem keeps_relocRewind {k : Nat} (hk32 : k < 2 ^ 32) (n : Nat) {t : Token} {d : Dirent}
    (ht : t.Calm) (hh : t.Holding fat e d l) (hne : l ≠ []) (hkl : k < l.length) (hle : d.clusCnt ≤ k)
    (hn : k - d.clusCnt ≤ n) :
    Keeps fat pid live own₀ i (relocRewind fat e k n) t fun _ t' => Moved fat t t' e d l k := by
  induction n generalizing t d with
  | zero => exact Triple.ret (.stay ht hh hne (by omega))
  | succ n ih =>
    simp only [relocRewind]
    apply Triple.bind (keeps_dirent hh.held)
    intro d₁ t₁ h₁
    obtain ⟨rfl, rfl⟩ := h₁
    by_cases hj : d₁.clusCnt < k
    · have hcur := hh.holds.cursor hne
      rw [if_pos hj]
      apply Triple.bind (keeps_readFatAt w _ hcur (hh.inRange _ (List.mem_of_getElem? hcur))
        (held_owned hh.held))
      intro v t₂ h₂
      obtain ⟨rfl, hstep, _, _⟩ := h₂
      have hd : l[d₁.clusCnt + 1]? = some (l.get ⟨d₁.clusCnt + 1, by omega⟩) :=
        List.getElem?_eq_getElem (by omega)
      have hvc := hstep _ hd
      have hlt := w.inRange_lt (hh.inRange _ (List.mem_of_getElem? hd))
      rw [if_neg (by omega), hvc]
      have hself : t₂ = t₂.hold e d₁ (l ++ []) := by
        rw [List.append_nil]
        exact (Token.hold_self hh.held).symm
      rw [hself]
      apply Triple.bind (keeps_advance ht hh hne rfl (by omega) (by simpa using hh.inRange) (by simp [hd]))
      intro _ t₃ h₃
      obtain ⟨heq, hcalm, hhold⟩ := h₃
      rw [List.append_nil] at hhold
      apply Triple.mono (ih hcalm hhold (by simp; omega) (by simp; omega))
      intro _ t₄ h₄
      rw [← hself]
      refine Moved.trans ?_ heq
      rw [List.append_nil]
      exact h₄
    · rw [if_neg hj]
      exact Triple.ret (.stay ht hh hne (by omega))

omit w in
/-- With the cursor beyond cluster `k`, going forward does nothing. -/
theorem keeps_relocForward_beyond {k : Nat} (hh : t.held e = some (d, l)) (alloc : Bool) (n : Nat)
    (hk : k < d.clusCnt) :
    Keeps fat pid live own₀ i (relocForward fat e k alloc n) t fun r t' => r = true ∧ t' = t := by
  cases n with
  | zero => exact Triple.ret ⟨rfl, rfl⟩
  | succ n =>
    simp only [relocForward]
    apply Triple.bind (keeps_dirent hh)
    intro d₁ t₁ h₁
    obtain ⟨rfl, rfl⟩ := h₁
    rw [if_neg (by omega)]
    exact Triple.ret ⟨rfl, rfl⟩

theorem keeps_relocBack {k : Nat} (hk32 : k < 2 ^ 32) (ht : t.Calm) (hh : t.Holding fat e d l)
    (hne : l ≠ []) (hk : k < d.clusCnt) :
    Keeps fat pid live own₀ i (relocBack fat e k) t fun _ t' => Moved fat t t' e d l k := by
  have hlt := (List.getElem?_eq_some_iff.mp (hh.holds.cursor hne)).1
  have hfirst : l[0]? = some d.firstClus := by
    obtain ⟨c₀, rest, rfl⟩ := List.exists_cons_of_ne_nil hne
    rw [hh.holds.first]
    rfl
  simp only [relocBack]
  apply Triple.bind (keeps_dirent hh.held)
  intro d₁ t₁ h₁
  obtain ⟨rfl, rfl⟩ := h₁
  rw [if_pos hk]
  have hholds : Holds { d₁ with curClus := d₁.firstClus, clusCnt := 0 } l := ⟨hh.holds.first, fun _ => hfirst⟩
  apply Triple.bind (keeps_assign hh.held rfl (ht.hold hholds).shape)
  intro _ t₂ h₂
  rw [h₂]
  apply Triple.mono (keeps_relocRewind w hk32 k (ht.hold hholds) (hh.hold hholds) hne (by omega)
    (Nat.zero_le _) (Nat.sub_le ..))
  intro _ t₃ h₃
  obtain ⟨c, new, h⟩ := h₃
  rw [Token.hold_hold] at h
  exact ⟨c, new, h⟩

omit w in
theorem keeps_relocBack_ahead {k : Nat} (hh : t.held e = some (d, l)) (hk : d.clusCnt ≤ k) :
    Keeps fat pid live own₀ i (relocBack fat e k) t fun _ t' => t' = t := by
  simp only [relocBack]
  apply Triple.bind (keeps_dirent hh)
  intro d₁ t₁ h₁
  obtain ⟨rfl, rfl⟩ := h₁
  rw [if_neg (by omega)]
  exact Triple.ret rfl

/-- `reloc_clus` with `alloc` on an entry with clusters. -/
theorem keeps_relocClus {off : Nat} (hoff : off < 2 ^ 32) (ht : t.Calm) (hh : t.Holding fat e d l)
    (hne : l ≠ []) :
    Keeps fat pid live own₀ i (relocClus fat e off true) t fun r t' =>
      r = (off % fat.bytsPerClus : Nat) ∧ Moved fat t t' e d l (off / fat.bytsPerClus) := by
  have hk32 : off / fat.bytsPerClus < 2 ^ 32 := (Nat.div_le_self ..).trans_lt hoff
  simp only [relocClus]
  by_cases hle : d.clusCnt ≤ off / fat.bytsPerClus
  · apply Triple.bind (keeps_relocForward w hk32 _ ht hh hne hle (Nat.sub_le ..))
    intro r t₁ h₁
    obtain ⟨rfl, hmoved⟩ := h₁
    rw [if_pos rfl]
    have hmoved' := hmoved
    obtain ⟨c, new, _, _, hhold, _⟩ := hmoved'
    apply Triple.bind (keeps_relocBack_ahead hhold.held (Nat.le_refl _))
    intro _ t₂ h₂
    rw [h₂]
    exact Triple.ret ⟨rfl, hmoved⟩
  · apply Triple.bind (keeps_relocForward_beyond hh.held true _ (by omega))
    intro r t₁ h₁
    obtain ⟨rfl, rfl⟩ := h₁
    rw [if_pos rfl]
    apply Triple.bind (keeps_relocBack w hk32 ht hh hne (by omega))
    intro _ t₂ h₂
    exact Triple.ret ⟨rfl, h₂⟩

end Cursor

/-! ### Data -/

section Data
variable (w : fat.Wf)
include w

omit w in
theorem within_bread (sec : Nat) : (bread sec).Within (fun _ => SameFat fat) IsPanic :=
  ⟨fun s s' h => by cases h; exact .refl s, fun _ => trivial⟩

theorem within_rwClusLoop {c off n : Nat} (hc : fat.InRange c) (hn : off + n ≤ fat.bytsPerClus)
    (write : Bool) (buf : Buf) (fuel tot o sec : Nat) (ho : o % 512 = (off + tot) % 512)
    (hsec : tot < n → sec = firstSecOfClus fat c + (off + tot) / 512) :
    (rwClusLoop write buf n fuel tot o sec).Within (fun _ => SameFat fat) IsPanic := by
  induction fuel generalizing tot o sec with
  | zero => trivial
  | succ fuel ih =>
    by_cases hend : tot < n
    · have hlt := bytsPerClus_lt w
      have hi := sector_lt w (show off + tot < fat.bytsPerClus by omega)
      obtain ⟨m, hm⟩ : ∃ m, m = min (512 - o % 512) (n - tot) := ⟨_, rfl⟩
      have ho' : u32 (o + m) % 512 = (off + (tot + m)) % 512 := by
        unfold u32
        omega
      have hsec' : tot + m < n → u32 (sec + 1) = firstSecOfClus fat c + (off + (tot + m)) / 512 := by
        intro hlt'
        have hnext := sector_lt w (show off + (tot + m) < fat.bytsPerClus by omega)
        have hdiv : (off + (tot + m)) / 512 = (off + tot) / 512 + 1 := by omega
        have := (w.firstSec_data hc hnext).2
        rw [hsec hend, u32_of_lt (by omega)]
        omega
      have hrest := ih (tot + m) (u32 (o + m)) (u32 (sec + 1)) ho' hsec'
      simp only [rwClusLoop, if_pos hend, bsize_eq, ← hm]
      split_ifs
      · refine Prog.Within.bind (Prog.Within.change _ _ fun s => ?_) fun _ => hrest
        rw [hsec hend]
        exact sameFat_data w hc hi s _
      · exact (within_bread sec).bind fun _ => trivial
      · exact (within_bread sec).bind fun _ => hrest.bind fun _ => trivial
      · exact (within_bread sec).bind fun _ => trivial
    · simp only [rwClusLoop, if_neg hend]
      trivial

/-- A transfer inside a cluster touches no FAT entry. -/
theorem within_rwClus {c off n : Nat} (hc : fat.InRange c) (hn : off + n ≤ fat.bytsPerClus)
    (write : Bool) (buf : Buf) : (rwClus fat c write buf off n).Within (fun _ => SameFat fat) IsPanic := by
  unfold rwClus
  split_ifs
  · trivial
  · apply within_rwClusLoop w hc hn
    · rw [w.bytsPerSec]
      exact Nat.mod_mod ..
    · intro hpos
      rw [transfer_sec w hc hn (by omega)]
      rfl

/-- The cursor goes to an offset, a transfer is made there, and the rest follows. -/
theorem keeps_transfer {off m : Nat} (hoff : off < 2 ^ 32) (hm : off % fat.bytsPerClus + m ≤ fat.bytsPerClus)
    (ht : t.Calm) (hh : t.Holding fat e d l) (hne : l ≠ []) (write : Bool) (buf : Buf) {o : Int → Nat}
    (ho : o (off % fat.bytsPerClus : Nat) = off % fat.bytsPerClus) {β : Type}
    {next : Nat × List Byte → Fs β} {Q : β → Token → Prop}
    (hnext : ∀ r t', Moved fat t t' e d l (off / fat.bytsPerClus) →
      Keeps fat pid live own₀ i (next r) t' Q) :
    Keeps fat pid live own₀ i (do
      let r ← relocClus fat e off true
      let d ← dirent e
      let x ← rwClus fat d.curClus write buf (o r) m
      next x) t Q := by
  apply Triple.bind (keeps_relocClus w hoff ht hh hne)
  intro r t₁ h₁
  obtain ⟨rfl, hmoved⟩ := h₁
  have hmoved' := hmoved
  obtain ⟨c, new, _, _, hhold, hc⟩ := hmoved'
  apply Triple.bind (keeps_dirent hhold.held)
  intro d₁ t₂ h₂
  obtain ⟨rfl, rfl⟩ := h₂
  rw [ho]
  apply Triple.bind (keeps_within
    (within_rwClus w (hhold.inRange c (List.mem_of_getElem? hc)) hm write buf))
  intro x t₃ h₃
  rw [h₃]
  exact hnext x t₂ hmoved

end Data

/-! ### Writing a file -/

/-- The process still holds `e`, which has a chain. -/
def Keeping (fat : Fat) (t t' : Token) (e : Ptr) : Prop :=
  ∃ d l, t' = t.hold e d l ∧ t'.Calm ∧ t'.Holding fat e d l ∧ l ≠ []

/-- The process still holds `e`, which is ready to be unlocked. -/
def Readied (t t' : Token) (e : Ptr) : Prop :=
  ∃ d l, t' = t.hold e d l ∧ t'.Calm ∧ t'.held e = some (d, l) ∧ Ready d l

theorem Moved.keeping {t' : Token} {k : Nat} (h : Moved fat t t' e d l k) : Keeping fat t t' e := by
  obtain ⟨c, new, heq, hcalm, hhold, hc⟩ := h
  refine ⟨_, _, heq, hcalm, hhold, ?_⟩
  intro hnil
  rw [hnil] at hc
  simp at hc

theorem Keeping.trans {t' t'' : Token} (h : Keeping fat t t' e) (h' : Keeping fat t' t'' e) :
    Keeping fat t t'' e := by
  obtain ⟨d, l, heq, _, _, _⟩ := h
  obtain ⟨d', l', heq', h'⟩ := h'
  rw [heq, Token.hold_hold] at heq'
  exact ⟨d', l', heq', h'⟩

theorem Keeping.refl (ht : t.Calm) (hh : t.Holding fat e d l) (hne : l ≠ []) : Keeping fat t t e :=
  ⟨d, l, (Token.hold_self hh.held).symm, ht, hh, hne⟩

theorem Keeping.readied {t' : Token} (h : Keeping fat t t' e) : Readied t t' e := by
  obtain ⟨d, l, heq, hcalm, hhold, hne⟩ := h
  exact ⟨d, l, heq, hcalm, hhold.held, hhold.holds, fun _ _ => hne⟩

/-- Other fields of a held dirent are assigned. -/
theorem keeps_fields {f : Dirent → Dirent} (ht : t.Calm) (hh : t.Holding fat e d l) (hne : l ≠ [])
    (hlock : (f d).lock = d.lock) (hholds : Holds (f d) l) :
    Keeps fat pid live own₀ i (assign e f) t fun _ t' => Keeping fat t t' e := by
  apply Triple.mono (keeps_assign hh.held hlock (ht.hold hholds).shape)
  intro _ t' ht'
  rw [ht']
  exact ⟨f d, l, rfl, ht.hold hholds, hh.hold hholds, hne⟩

section Write
variable (w : fat.Wf)
include w

theorem keeps_ewriteLoop (buf : Buf) {n : Nat} (fuel tot off : Nat) (hoff : off + (n - tot) < 2 ^ 32)
    {t : Token} {d : Dirent} {l : List Nat} (ht : t.Calm) (hh : t.Holding fat e d l) (hne : l ≠ []) :
    Keeps fat pid live own₀ i (ewriteLoop fat e buf n fuel tot off) t fun _ t' => Keeping fat t t' e := by
  induction fuel generalizing tot off t d l with
  | zero => exact Triple.ret (.refl ht hh hne)
  | succ fuel ih =>
    by_cases hend : tot < n
    · have hmod := Nat.mod_lt off w.bytsPerClus_pos
      simp only [ewriteLoop, if_pos hend]
      apply keeps_transfer w (by omega) (by omega) ht hh hne true _ rfl
      intro r t₁ h₁
      have hk := h₁.keeping
      split_ifs
      · exact Triple.ret hk
      · obtain ⟨d₁, l₁, _, hcalm, hhold, hne₁⟩ := hk
        rw [u32_of_lt (by omega)]
        apply Triple.mono (ih _ _ (by omega) hcalm hhold hne₁)
        intro _ t₂ h₂
        exact h₁.keeping.trans h₂
    · simp only [ewriteLoop, if_neg hend]
      exact Triple.ret (.refl ht hh hne)

theorem keeps_ewriteFirst (ht : t.Calm) (hh : t.Holding fat e d l) :
    Keeps fat pid live own₀ i (ewriteFirst fat e) t fun _ t' => Keeping fat t t' e := by
  simp only [ewriteFirst]
  apply Triple.bind (keeps_dirent hh.held)
  intro d₁ t₁ h₁
  obtain ⟨rfl, rfl⟩ := h₁
  by_cases hz : d₁.firstClus = 0
  · have hl : l = [] := by
      cases l with
      | nil => rfl
      | cons c rest =>
        have h1 := (hh.inRange c List.mem_cons_self).1
        have h2 : d₁.firstClus = c := hh.holds.first
        omega
    subst hl
    rw [if_pos hz]
    apply Triple.bind (keeps_allocClus w ht)
    intro c t₂ h₂
    obtain ⟨rfl, hc⟩ := h₂
    apply Triple.mono (keeps_first (t := { t₁ with loose := [c] }) hh.held ht.phase rfl ht.firsts rfl rfl)
    intro _ t₃ h₃
    have hholds : Holds { d₁ with curClus := c, firstClus := c, clusCnt := 0, dirty := true } [c] :=
      ⟨rfl, fun _ => rfl⟩
    have heq : t₃ = t₁.hold e { d₁ with curClus := c, firstClus := c, clusCnt := 0, dirty := true } [c] := by
      rw [h₃]
      unfold Token.hold
      rw [ht.loose]
    rw [heq]
    refine ⟨_, [c], rfl, ht.hold hholds, ⟨Token.hold_held_same .., hholds, ?_⟩, by simp⟩
    intro c' hc'
    rw [List.mem_singleton.mp hc']
    exact hc
  · rw [if_neg hz]
    refine Triple.ret (.refl ht hh ?_)
    rintro rfl
    exact hz hh.holds.first

omit w in
theorem keeps_ewriteSize (off n : Nat) (ht : t.Calm) (hh : t.Holding fat e d l) (hne : l ≠ []) :
    Keeps fat pid live own₀ i (ewriteSize e off n) t fun _ t' => Keeping fat t t' e := by
  unfold ewriteSize
  split_ifs
  · apply Triple.bind (keeps_dirent hh.held)
    intro d₁ t₁ h₁
    obtain ⟨rfl, rfl⟩ := h₁
    split_ifs
    · exact keeps_fields ht hh hne rfl ⟨hh.holds.first, hh.holds.cursor⟩
    · exact Triple.ret (.refl ht hh hne)
  · exact Triple.ret (.refl ht hh hne)

theorem keeps_ewrite (buf : Buf) (off n : Nat) (ht : t.Calm) (hh : t.Holding fat e d l) (hr : Ready d l) :
    Keeps fat pid live own₀ i (ewrite fat e buf off n) t fun _ t' => Readied t t' e := by
  simp only [ewrite]
  apply Triple.bind (keeps_dirent hh.held)
  intro d₁ t₁ h₁
  obtain ⟨rfl, rfl⟩ := h₁
  by_cases hno : off > d₁.fileSize ∨ u32 (off + n) < off ∨ off + n > 0xffffffff
      ∨ d₁.attr &&& attrReadOnly ≠ 0
  · rw [if_pos hno]
    exact Triple.ret ⟨d₁, l, (Token.hold_self hh.held).symm, ht, hh.held, hr⟩
  · rw [if_neg hno]
    have hoff : off + n < 2 ^ 32 := by
      by_contra hge
      exact hno (.inr (.inr (.inl (by omega))))
    apply Triple.bind (keeps_ewriteFirst w ht hh)
    intro _ t₂ h₂
    have hk₂ := h₂
    obtain ⟨d₂, l₂, _, hcalm₂, hhold₂, hne₂⟩ := h₂
    apply Triple.bind (keeps_ewriteLoop w buf n 0 off (by omega) hcalm₂ hhold₂ hne₂)
    intro tot t₃ h₃
    have hk₃ := h₃
    obtain ⟨d₃, l₃, _, hcalm₃, hhold₃, hne₃⟩ := h₃
    apply Triple.bind (keeps_ewriteSize _ n hcalm₃ hhold₃ hne₃)
    intro _ t₄ h₄
    exact Triple.ret ((hk₂.trans hk₃).trans h₄).readied

end Write

/-! ### Truncating -/

/-- The loop of `etrunc` at the first of the clusters left. -/
theorem keeps_etruncLoop (w : fat.Wf) (n clus : Nat) {rest freed : List Nat} {t : Token} {d : Dirent}
    (hn : rest.length ≤ n) (hin : ∀ c ∈ rest, fat.InRange c) (hhead : ∀ c ∈ rest.head?, clus = c)
    (hend : rest = [] → ¬ (2 ≤ clus ∧ clus < fat32Eoc)) (hloose : t.loose = rest)
    (hphase : t.phase = .truncating e freed) (hh : t.held e = some (d, []))
    (hfirst : d.firstClus = (freed ++ t.loose).headD 0) (hfirsts : t.Firsts (some e)) :
    Keeps fat pid live own₀ i (etruncLoop fat n clus) t fun _ t' => ∃ freed',
      t' = { t with loose := [], phase := .truncating e freed' } := by
  induction rest generalizing n clus freed t with
  | nil =>
    have hret : Keeps fat pid live own₀ i (return : Fs Unit) t fun _ t' => ∃ freed',
        t' = { t with loose := [], phase := .truncating e freed' } := by
      refine Triple.ret ⟨freed, ?_⟩
      rw [← hloose, ← hphase]
    cases n with
    | zero => simpa only [etruncLoop, if_neg (hend rfl)] using hret
    | succ n => simpa only [etruncLoop, if_neg (hend rfl)] using hret
  | cons c rest ih =>
    obtain rfl : clus = c := hhead c rfl
    have hcr := hin clus List.mem_cons_self
    obtain ⟨n, rfl⟩ : ∃ m, n = m + 1 := ⟨n - 1, by simp only [List.length_cons] at hn; omega⟩
    simp only [etruncLoop, if_pos (show 2 ≤ clus ∧ clus < fat32Eoc from ⟨hcr.1, w.inRange_lt hcr⟩), readFat]
    apply Triple.bind (keeps_readFatAt w _ (show t.loose[0]? = some clus by rw [hloose]; rfl) hcr loose_owned)
    intro next t₁ h₁
    obtain ⟨rfl, hstep, hlast, _⟩ := h₁
    rw [hloose] at hstep hlast
    apply Triple.bind (keeps_freeClus w hcr hloose hphase hh hfirst hfirsts)
    intro _ t₂ h₂
    subst h₂
    apply ih n next (t := { t₁ with loose := rest, phase := .truncating e (freed ++ [clus]) })
      (by simpa using hn) (fun c hc => hin c (List.mem_cons_of_mem _ hc))
    · intro c' hc'
      cases rest with
      | nil => simp at hc'
      | cons c'' rest' =>
        obtain rfl : c'' = c' := by simpa using hc'
        exact hstep c'' rfl
    · rintro rfl
      have := hlast rfl
      omega
    · rfl
    · rfl
    · exact hh
    · rw [hfirst, hloose, List.append_assoc]
      rfl
    · exact hfirsts

/-- A list of different clusters is no longer than the volume. -/
theorem length_le_clusters {l : List Nat} (hnd : l.Nodup) (hin : ∀ c ∈ l, fat.InRange c) :
    l.length ≤ fat.dataClusCnt := by
  have hsub : l.toFinset ⊆ Finset.Icc 2 (fat.dataClusCnt + 1) := fun c hc =>
    Finset.mem_Icc.mpr (hin c (List.mem_toFinset.mp hc))
  have := Finset.card_le_card hsub
  rw [List.toFinset_card_of_nodup hnd, Nat.card_Icc] at this
  omega

/-- Truncating an entry that is not a directory in use. -/
theorem keeps_etrunc (w : fat.Wf) (ht : t.Calm) (hh : t.Holding fat e d l)
    (hdir : ¬ (d.attr &&& attrDirectory ≠ 0 ∧ d.valid = 1)) :
    Keeps fat pid live own₀ i (etrunc fat e) t fun _ t' => Readied t t' e := by
  simp only [etrunc]
  apply Triple.bind (keeps_truncStart ht hh.held hh.holds.first)
  intro d₁ t₁ h₁
  obtain ⟨rfl, hnd, ht₁⟩ := h₁
  have hheld : t₁.held e = some (d₁, []) := by
    rw [ht₁]
    exact Token.hold_held_same ..
  have hloose : t₁.loose = l := by rw [ht₁]
  have hphase : t₁.phase = .truncating e [] := by rw [ht₁]
  have hfirsts : t₁.Firsts (some e) := by
    intro e' d' l' hne he'
    rw [ht₁, show ({ t.hold e d₁ [] with loose := l, phase := .truncating e [] } : Token).held e' = t.held e' from
      Token.hold_held_ne _ _ _ fun h => hne (congrArg some h)] at he'
    exact ht.firsts e' d' l' (fun h => by cases h) he'
  apply Triple.bind (keeps_etruncLoop w (fat.dataClusCnt + 2) d₁.firstClus
    (show l.length ≤ _ by have := length_le_clusters hnd hh.inRange; omega) hh.inRange _ _ hloose hphase hheld
    (by rw [hloose]; exact hh.holds.first) hfirsts)
  · intro _ t₂ h₂
    obtain ⟨freed, h₂⟩ := h₂
    rw [h₂]
    apply Triple.mono (keeps_truncEnd (t := { t₁ with loose := [], phase := .truncating e freed }) rfl rfl hheld
      hfirsts rfl rfl)
    intro _ t₃ h₃
    have heq : t₃ = t.hold e { d₁ with fileSize := 0, firstClus := 0, dirty := true } [] := by
      rw [h₃, ht₁]
      unfold Token.hold
      simp only [Function.update_idem, ht.loose, ht.phase]
    have hholds : Holds { d₁ with fileSize := 0, firstClus := 0, dirty := true } [] :=
      ⟨rfl, fun h => absurd rfl h⟩
    rw [heq]
    exact ⟨_, [], rfl, ht.hold hholds, Token.hold_held_same .., hholds, fun h1 h2 => absurd ⟨h1, h2⟩ hdir⟩
  · intro c hc
    cases l with
    | nil => simp at hc
    | cons c' rest =>
      obtain rfl : c' = c := by simpa using hc
      exact hh.holds.first
  · rintro rfl
    have : d₁.firstClus = 0 := hh.holds.first
    omega

/-! ### Records -/

section Records
variable (w : fat.Wf)
include w

theorem keeps_emakeRecord (de : Bytes) {off : Nat} (hoff : off < 2 ^ 32) (hal : off % 32 = 0) (ht : t.Calm)
    (hh : t.Holding fat e d l) (hne : l ≠ []) :
    Keeps fat pid live own₀ i (emakeRecord fat e off de) t fun _ t' => Keeping fat t t' e := by
  have hb := w.bytsPerClus_eq
  have hpos := w.bytsPerClus_pos
  have hlt := bytsPerClus_lt w
  have hmod := Nat.mod_lt off hpos
  have h32 : off % fat.bytsPerClus % 32 = 0 := by
    rw [hb, Nat.mod_mod_of_dvd _ ((by decide : 32 ∣ 512).mul_left _)]
    exact hal
  unfold emakeRecord
  apply keeps_transfer w hoff (by unfold recordSz; omega) ht hh hne true _ (ofInt_natCast (by omega))
  intro r t₁ h₁
  exact Triple.ret h₁.keeping

theorem keeps_emakeLong (name : CString) (checksum : Byte) (n off : Nat) (hoff : off < 2 ^ 32)
    (hal : off % 32 = 0) {t : Token} {d : Dirent} {l : List Nat} (ht : t.Calm) (hh : t.Holding fat e d l)
    (hne : l ≠ []) :
    Keeps fat pid live own₀ i (emakeLong fat e name checksum n off) t fun off' t' =>
      Keeping fat t t' e ∧ off' < 2 ^ 32 ∧ off' % 32 = 0 := by
  induction n generalizing off t d l with
  | zero => exact Triple.ret ⟨.refl ht hh hne, hoff, hal⟩
  | succ n ih =>
    simp only [emakeLong]
    apply Triple.bind (keeps_emakeRecord w _ hoff hal ht hh hne)
    intro _ t₁ h₁
    have hk := h₁
    obtain ⟨d₁, l₁, _, hcalm, hhold, hne₁⟩ := h₁
    apply Triple.mono (ih (u32 (off + recordSz)) (Nat.mod_lt _ (by decide)) _ hcalm hhold hne₁)
    · intro off' t₂ h₂
      exact ⟨hk.trans h₂.1, h₂.2⟩
    · unfold u32 recordSz
      omega

/-- `emake` into a held directory. -/
theorem keeps_emake (ep : Ptr) {off : Nat} (hoff : off < 2 ^ 32) (ht : t.Calm) (hh : t.Holding fat e d l)
    (hne : l ≠ []) : Keeps fat pid live own₀ i (emake fat e ep off) t fun _ t' => Keeping fat t t' e := by
  simp only [emake]
  apply Triple.bind (keeps_dirent hh.held)
  intro d₁ t₁ h₁
  obtain ⟨rfl, rfl⟩ := h₁
  by_cases hal : off % 32 = 0
  · rw [if_neg (show ¬ off % recordSz ≠ 0 from fun h => h hal)]
    split_ifs
    · exact Triple.stop trivial
    · apply Triple.bind keeps_dirent_any
      intro e₁ t₂ h₂
      rw [h₂]
      exact keeps_emakeRecord w _ hoff hal ht hh hne
    · apply Triple.bind keeps_dirent_any
      intro e₁ t₂ h₂
      rw [h₂]
      apply Triple.bind (keeps_emakeLong w _ _ _ _ hoff hal ht hh hne)
      intro off' t₃ h₃
      obtain ⟨hk, hoff', hal'⟩ := h₃
      have hk₃ := hk
      obtain ⟨d₃, l₃, _, hcalm, hhold, hne₃⟩ := hk
      apply Triple.bind keeps_dirent_any
      intro e₂ t₄ h₄
      rw [h₄]
      apply Triple.mono (keeps_emakeRecord w _ hoff' hal' hcalm hhold hne₃)
      intro _ t₅ h₅
      exact hk₃.trans h₅
  · rw [if_pos (show off % recordSz ≠ 0 from hal)]
    split_ifs
    · exact Triple.stop trivial
    · exact Triple.stop trivial

end Records

/-! ### Creating a directory -/

/-- The process holds the directory `dp` and a slot `ep` whose dirent and chain
meet `P`, and
otherwise what it held at first. -/
structure Duo (fat : Fat) (P : Dirent → List Nat → Prop) (t₀ t : Token) (dp ep : Ptr) : Prop where
  ne : dp ≠ ep
  calm : t.Calm
  dir : ∃ d l, t.Holding fat dp d l ∧ l ≠ []
  slot : ∃ d l, t.Holding fat ep d l ∧ P d l
  handles : t.handles = t₀.handles
  others : ∀ e, e ≠ dp → e ≠ ep → t.held e = t₀.held e

section Create
variable (w : fat.Wf) {t₀ t' : Token} {dp ep : Ptr} {P : Dirent → List Nat → Prop}

theorem Duo.moveDir (h : Duo fat P t₀ t dp ep) (hk : Keeping fat t t' dp) : Duo fat P t₀ t' dp ep := by
  obtain ⟨d, l, heq, hcalm, hhold, hne⟩ := hk
  obtain ⟨d', l', hslot, hP⟩ := h.slot
  refine ⟨h.ne, hcalm, ⟨d, l, hhold, hne⟩, ⟨d', l', ?_, hP⟩, ?_, ?_⟩
  · rw [heq]
    exact hslot.other (Ne.symm h.ne)
  · rw [heq]
    exact h.handles
  · intro e h1 h2
    rw [heq, Token.hold_held_ne _ _ _ h1]
    exact h.others e h1 h2

/-- The slot's dirent and chain are others now. -/
theorem Duo.moveSlot {Q : Dirent → List Nat → Prop} (h : Duo fat P t₀ t dp ep) {d : Dirent} {l : List Nat}
    (heq : t' = t.hold ep d l) (hcalm : t'.Calm) (hhold : t'.Holding fat ep d l) (hQ : Q d l) :
    Duo fat Q t₀ t' dp ep := by
  obtain ⟨d', l', hdir, hne⟩ := h.dir
  refine ⟨h.ne, hcalm, ⟨d', l', ?_, hne⟩, ⟨d, l, hhold, hQ⟩, ?_, ?_⟩
  · rw [heq]
    exact hdir.other h.ne
  · rw [heq]
    exact h.handles
  · intro e h1 h2
    rw [heq, Token.hold_held_ne _ _ _ h2]
    exact h.others e h1 h2

theorem Duo.keepSlot (h : Duo fat (fun _ l => l ≠ []) t₀ t dp ep) (hk : Keeping fat t t' ep) :
    Duo fat (fun _ l => l ≠ []) t₀ t' dp ep := by
  obtain ⟨d, l, heq, hcalm, hhold, hne⟩ := hk
  exact h.moveSlot heq hcalm hhold hne

/-- Fields of the slot are assigned, but not its first cluster or its cursor. -/
theorem keeps_slotAssign {Q : Dirent → List Nat → Prop} {f : Dirent → Dirent} (h : Duo fat P t₀ t dp ep)
    (hlock : ∀ d, (f d).lock = d.lock) (hholds : ∀ d l, P d l → Holds d l → Holds (f d) l ∧ Q (f d) l) :
    Keeps fat pid live own₀ i (assign ep f) t fun _ t' => Duo fat Q t₀ t' dp ep := by
  obtain ⟨d, l, hslot, hP⟩ := h.slot
  obtain ⟨hh, hQ⟩ := hholds d l hP hslot.holds
  apply Triple.mono (keeps_assign hslot.held (hlock d) (h.calm.hold hh).shape)
  intro _ t' ht'
  refine h.moveSlot ht' ?_ ?_ hQ
  · rw [ht']
    exact h.calm.hold hh
  · rw [ht']
    exact hslot.hold hh

theorem keeps_publish (h : Duo fat (fun _ l => l ≠ []) t₀ t dp ep) :
    Keeps fat pid live own₀ i (publish ep) t fun _ t' => Duo fat (fun _ l => l ≠ []) t₀ t' dp ep :=
  keeps_slotAssign h (fun _ => rfl) fun _ _ hP hh => ⟨⟨hh.first, hh.cursor⟩, hP⟩

/-- A reference to the directory is taken. -/
theorem keeps_edup (h : Duo fat P t₀ t dp ep) :
    Keeps fat pid live own₀ i (edup (some dp)) t fun _ t' => Duo fat P t₀ t' dp ep := by
  obtain ⟨d, l, hdir, hne⟩ := h.dir
  apply Triple.bind (keeps_fields h.calm hdir hne (f := fun d => { d with ref := d.ref + 1 }) rfl
    ⟨hdir.holds.first, hdir.holds.cursor⟩)
  intro _ t₁ h₁
  exact Triple.ret (h.moveDir h₁)

include w

theorem keeps_emakeDir (h : Duo fat P t₀ t dp ep) {off : Nat} (hoff : off < 2 ^ 32) (e' : Ptr) :
    Keeps fat pid live own₀ i (emake fat dp e' off) t fun _ t' => Duo fat P t₀ t' dp ep := by
  obtain ⟨d, l, hdir, hne⟩ := h.dir
  apply Triple.mono (keeps_emake w e' hoff h.calm hdir hne)
  intro _ t₁ h₁
  exact h.moveDir h₁

theorem keeps_emakeSlot (h : Duo fat (fun _ l => l ≠ []) t₀ t dp ep) {off : Nat} (hoff : off < 2 ^ 32) (e' : Ptr) :
    Keeps fat pid live own₀ i (emake fat ep e' off) t fun _ t' => Duo fat (fun _ l => l ≠ []) t₀ t' dp ep := by
  obtain ⟨d, l, hslot, hne⟩ := h.slot
  apply Triple.mono (keeps_emake w e' hoff h.calm hslot hne)
  intro _ t₁ h₁
  exact h.keepSlot h₁

/-- The slot of a file without clusters. -/
def NoClusters (d : Dirent) (l : List Nat) : Prop := l = [] ∧ d.clusCnt = 0

/-- The first cluster of the new directory and its two entries. -/
theorem keeps_eallocDots (h : Duo fat NoClusters t₀ t dp ep) :
    Keeps fat pid live own₀ i (eallocDots fat dp ep) t fun _ t' =>
      Duo fat (fun _ l => l ≠ []) t₀ t' dp ep := by
  simp only [eallocDots]
  obtain ⟨d, l, hslot, rfl, hcnt⟩ := h.slot
  apply Triple.bind (keeps_allocClus w h.calm)
  intro c t₁ h₁
  obtain ⟨rfl, hc⟩ := h₁
  apply Triple.bind (keeps_first (t := { t with loose := [c] }) hslot.held h.calm.phase rfl h.calm.firsts
    rfl rfl)
  intro _ t₂ h₂
  have hholds : Holds { d with curClus := c, firstClus := c } [c] := by
    refine ⟨rfl, fun _ => ?_⟩
    show [c][d.clusCnt]? = some c
    rw [hcnt]
    rfl
  have heq : t₂ = t.hold ep { d with curClus := c, firstClus := c } [c] := by
    rw [h₂]
    unfold Token.hold
    rw [h.calm.loose]
  have hcalm : t₂.Calm := by
    rw [heq]
    exact h.calm.hold hholds
  have hhold : t₂.Holding fat ep { d with curClus := c, firstClus := c } [c] := by
    rw [heq]
    refine ⟨Token.hold_held_same .., hholds, fun c' hc' => ?_⟩
    rw [List.mem_singleton.mp hc']
    exact hc
  apply Triple.bind (keeps_emakeSlot w (h.moveSlot heq hcalm hhold (by simp)) (by decide) ep)
  intro _ t₃ h₃
  exact keeps_emakeSlot w h₃ (by decide) dp

/-- `ealloc` of a directory: the slot is set up, the directory gets its clusters and its
entries, and its record is written into `dp`. -/
theorem keeps_eallocNew (name : CString) {off : Nat} (hoff : off < 2 ^ 32) (ht : t.Calm)
    (hh : t.Holding fat dp d l) (hne : l ≠ []) :
    Keeps fat pid live own₀ i (eallocNew fat (pid i) dp ep name attrDirectory off) t fun _ t' =>
      t'.Calm ∧ (∃ d l, t'.Holding fat dp d l ∧ l ≠ []) ∧ (∀ e, e ≠ dp → t'.held e = t.held e) ∧
      t'.handles = fun e => t.handles e ∨ e = ep := by
  simp only [eallocNew]
  apply Triple.bind (keeps_elockFresh ht)
  intro _ t₁ h₁
  obtain ⟨d₁, l₁, rfl, hnone⟩ := h₁
  have hdp : dp ≠ ep := by
    rintro rfl
    rw [hh.held] at hnone
    cases hnone
  apply Triple.bind (keeps_setup ht rfl rfl)
  intro _ t₂ h₂
  have hholds : Holds { d₁ with attr := attrDirectory, fileSize := 0, firstClus := 0 } [] :=
    ⟨rfl, fun h => absurd rfl h⟩
  have hduo : Duo fat (fun _ l => l = []) t t₂ dp ep := by
    rw [h₂]
    refine ⟨hdp, ht.hold hholds, ⟨d, l, hh.other hdp, hne⟩,
      ⟨_, [], ⟨Token.hold_held_same .., hholds, fun _ h => by cases h⟩, rfl⟩, rfl, ?_⟩
    intro e _ h2
    exact Token.hold_held_ne _ _ _ h2
  apply Triple.bind (keeps_edup hduo)
  intro _ t₃ h₃
  refine Triple.bind (keeps_slotAssign (Q := NoClusters) h₃ ?_ ?_) ?_
  · exact fun _ => rfl
  · exact fun _ _ hP hh' => ⟨⟨hh'.first, fun h => absurd hP h⟩, hP, rfl⟩
  intro _ t₄ h₄
  rw [if_pos trivial]
  refine Triple.bind (keeps_slotAssign (Q := NoClusters) h₄ ?_ ?_) ?_
  · exact fun _ => rfl
  · exact fun _ _ hP hh' => ⟨⟨hh'.first, hh'.cursor⟩, hP⟩
  intro _ t₅ h₅
  apply Triple.bind (keeps_eallocDots w h₅)
  intro _ t₆ h₆
  apply Triple.bind (keeps_emakeDir w h₆ hoff ep)
  intro _ t₇ h₇
  apply Triple.bind (keeps_publish h₇)
  intro _ t₈ h₈
  obtain ⟨d₈, l₈, hslot, hne₈⟩ := h₈.slot
  have hnone' : ∀ e, e ≠ dp → (t₈.drop ep fun e => t.handles e ∨ e = ep).held e = t.held e := by
    intro e he
    by_cases hep : e = ep
    · rw [hep, Token.drop_held_same, hnone]
    · rw [Token.drop_held_ne _ _ hep]
      exact h₈.others e he hep
  apply Triple.mono (keeps_eunlock h₈.calm hslot.held ⟨hslot.holds, fun _ _ => hne₈⟩
    (fun e => t.handles e ∨ e = ep) _ _)
  · intro _ t₉ h₉
    obtain ⟨h₉, hcalm⟩ := h₉
    obtain ⟨d₉, l₉, hdir, hne₉⟩ := h₈.dir
    refine ⟨hcalm, ⟨d₉, l₉, ?_, hne₉⟩, ?_, ?_⟩
    · rw [h₉]
      exact ⟨(Token.drop_held_ne _ _ hdp).trans hdir.held, hdir.holds, hdir.inRange⟩
    · rw [h₉]
      exact hnone'
    · rw [h₉]
      rfl
  · intro e he
    rw [h₈.handles] at he
    exact .inl he
  · intro e he
    rw [h₈.handles]
    exact he

end Create

end Farron
