import Farron.Fat.Chain
import Mathlib.Data.Finset.Interval
import Mathlib.Order.Interval.Finset.Nat

/-! The bytes of a chain, under writing, reading and truncating.

`chainByte` numbers the bytes of a chain across its clusters. A write through the
cursor splices its data into them (`Spliced`): the chain may have grown, the bytes
written are the data, the others as before or zero where there were none, and no
other cluster has changed. The loops of `ewrite` and `eread` follow by induction on
the rounds, one cluster a round. -/
namespace Farron
open Resumption Chains
variable {fat : Fat}

/-- Byte `o` of a chain. -/
def chainByte (fat : Fat) (disk : Disk) (l : List Nat) (o : Nat) : Byte :=
  match l[o / fat.bytsPerClus]? with
  | some c => clusByte fat disk c (o % fat.bytsPerClus)
  | none => 0

theorem chainByte_eq {disk : Disk} {l : List Nat} {o c : Nat} (h : l[o / fat.bytsPerClus]? = some c) :
    chainByte fat disk l o = clusByte fat disk c (o % fat.bytsPerClus) := by
  rw [chainByte, h]

/-- The cluster of a byte of the chain. -/
theorem exists_cluster (w : fat.Wf) {l : List Nat} {o : Nat} (h : o < l.length * fat.bytsPerClus) :
    ∃ c, l[o / fat.bytsPerClus]? = some c :=
  ⟨_, List.getElem?_eq_getElem ((Nat.div_lt_iff_lt_mul w.bytsPerClus_pos).mpr h)⟩

/-- Bytes `off .. off + n - 1` of the chain `l`, grown to `l'`, are `data`'s first `n`. -/
structure Spliced (fat : Fat) (l l' : List Nat) (off n : Nat) (data : Nat → Byte) (disk disk' : Disk) :
    Prop where
  extends' : ∃ new, l' = l ++ new ∧ ∀ c ∈ new, fat.InRange c ∧ fatEntry fat disk c = 0
  chain : Chain fat disk' l'
  entry : ∀ c, c ≤ fat.dataClusCnt + 1 → c ∉ l' → fatEntry fat disk' c = fatEntry fat disk c
  other : ∀ c o, fat.InRange c → o < fat.bytsPerClus → c ∉ l' →
    clusByte fat disk' c o = clusByte fat disk c o
  byte : ∀ o, o < l'.length * fat.bytsPerClus → chainByte fat disk' l' o =
    if off ≤ o ∧ o < off + n then data (o - off)
    else if o < l.length * fat.bytsPerClus then chainByte fat disk l o else 0
  fits : n ≠ 0 → off + n ≤ l'.length * fat.bytsPerClus

section Spliced
variable (w : fat.Wf) {l l' l'' : List Nat} {disk disk' disk'' : Disk} {off n m : Nat}
  {data : Nat → Byte}
include w

omit w in
theorem Spliced.refl (h : Chain fat disk l) (off : Nat) (data : Nat → Byte) :
    Spliced fat l l off 0 data disk disk where
  extends' := ⟨[], by simp, fun _ h => by simp at h⟩
  chain := h
  entry _ _ _ := rfl
  other _ _ _ _ _ := rfl
  byte o ho := by rw [if_neg (by omega), if_pos ho]
  fits h := absurd rfl h

theorem Grown.spliced (h : Grown fat l l' disk disk') (off : Nat) (data : Nat → Byte) :
    Spliced fat l l' off 0 data disk disk' where
  extends' := h.extends'
  chain := h.chain
  entry := h.entry
  other c o hc ho hn := by rw [h.byte c o hc ho, if_neg (fun hh => hn hh.1)]
  byte o ho := by
    obtain ⟨c, hc⟩ := exists_cluster w ho
    obtain ⟨new, rfl, _⟩ := h.extends'
    rw [if_neg (by omega), chainByte_eq hc,
      h.byte c _ (h.chain.get_inRange hc) (Nat.mod_lt _ w.bytsPerClus_pos)]
    by_cases hl : o < l.length * fat.bytsPerClus
    · have hk := (Nat.div_lt_iff_lt_mul w.bytsPerClus_pos).mpr hl
      rw [List.getElem?_append_left hk] at hc
      rw [if_neg (fun hh => hh.2 (List.mem_of_getElem? hc)), if_pos hl, chainByte_eq hc]
    · have hk : l.length ≤ o / fat.bytsPerClus := by
        by_contra hlt
        exact hl ((Nat.div_lt_iff_lt_mul w.bytsPerClus_pos).mp (by omega))
      have hmem := List.mem_of_getElem? hc
      rw [List.getElem?_append_right hk] at hc
      have hnew := List.mem_of_getElem? hc
      rw [if_neg hl, if_pos ⟨hmem, fun hm => List.disjoint_of_nodup_append h.chain.nodup hm hnew⟩]
  fits h := absurd rfl h

/-- A write inside one cluster of the chain. -/
theorem Written.spliced {c k : Nat} (hl : Chain fat disk l) (hk : l[k]? = some c)
    (ho : off / fat.bytsPerClus = k) (hn : off % fat.bytsPerClus + n ≤ fat.bytsPerClus)
    (h : Written fat c (off % fat.bytsPerClus) n data disk disk') :
    Spliced fat l l off n data disk disk' where
  extends' := ⟨[], by simp, fun _ h => by simp at h⟩
  chain := hl.congr fun c' hc' => h.entry c' (hl.inRange c' hc').2
  entry c' hc' _ := h.entry c' hc'
  other c' o hc' ho' hn' := by
    rw [h.byte c' o hc' ho', if_neg]
    rintro ⟨rfl, _⟩
    exact hn' (List.mem_of_getElem? hk)
  byte o hlt := by
    obtain ⟨d, hd⟩ := exists_cluster w hlt
    have hpos := w.bytsPerClus_pos
    rw [if_pos hlt, chainByte_eq hd, chainByte_eq hd,
      h.byte d _ (hl.get_inRange hd) (Nat.mod_lt _ hpos)]
    have ho' := Nat.div_add_mod o fat.bytsPerClus
    have hoff := Nat.div_add_mod off fat.bytsPerClus
    have hmod := Nat.mod_lt o hpos
    have hmod' := Nat.mod_lt off hpos
    by_cases hko : o / fat.bytsPerClus = k
    · rw [hko] at hd ho'
      rw [ho] at hoff
      obtain rfl : c = d := by simpa [hk] using hd
      by_cases hin : off ≤ o ∧ o < off + n
      · rw [if_pos hin, if_pos ⟨rfl, by omega⟩]
        congr 1
        omega
      · rw [if_neg hin, if_neg (by omega)]
    · have hdc : d ≠ c := by
        rintro rfl
        have h1 := List.getElem?_eq_some_iff.mp hd
        have h2 := List.getElem?_eq_some_iff.mp hk
        exact hko ((List.Nodup.getElem_inj_iff hl.nodup).mp (h1.2.trans h2.2.symm))
      rw [if_neg (fun hh => hdc hh.1), if_neg]
      rintro ⟨h1, h2⟩
      apply hko
      rw [← ho]
      have hle : off / fat.bytsPerClus ≤ o / fat.bytsPerClus := Nat.div_le_div_right h1
      refine le_antisymm ?_ hle
      by_contra hgt
      have : fat.bytsPerClus * (off / fat.bytsPerClus + 1) ≤ fat.bytsPerClus * (o / fat.bytsPerClus) :=
        Nat.mul_le_mul_left _ (by omega)
      rw [Nat.mul_add] at this
      omega
  fits _ := by
    have hlt := (List.getElem?_eq_some_iff.mp hk).1
    have hoff := Nat.div_add_mod off fat.bytsPerClus
    have : fat.bytsPerClus * (k + 1) ≤ fat.bytsPerClus * l.length := Nat.mul_le_mul_left _ hlt
    rw [ho] at hoff
    rw [Nat.mul_add, Nat.mul_comm _ l.length] at this
    omega

omit w in
/-- Two writes, the second where the first ended. -/
theorem Spliced.trans (h : Spliced fat l l' off m data disk disk')
    (h' : Spliced fat l' l'' (off + m) n (fun i => data (m + i)) disk' disk'') :
    Spliced fat l l'' off (m + n) data disk disk'' where
  extends' := by
    obtain ⟨new, hl', hnew⟩ := h.extends'
    obtain ⟨new', hl'', hnew'⟩ := h'.extends'
    refine ⟨new ++ new', by rw [hl'', hl', List.append_assoc], fun c hc => ?_⟩
    rcases List.mem_append.mp hc with hc | hc
    · exact hnew c hc
    · obtain ⟨hr, hz⟩ := hnew' c hc
      refine ⟨hr, ?_⟩
      rw [← hz]
      refine (h.entry c hr.2 fun hm => ?_).symm
      have hnd := hl'' ▸ h'.chain.nodup
      exact List.disjoint_of_nodup_append hnd hm hc
  chain := h'.chain
  entry c hc hn := by
    have hn' : c ∉ l' := by
      obtain ⟨new, rfl, _⟩ := h'.extends'
      exact fun hm => hn (List.mem_append_left _ hm)
    rw [h'.entry c hc hn, h.entry c hc hn']
  other c o hc ho hn := by
    have hn' : c ∉ l' := by
      obtain ⟨new, rfl, _⟩ := h'.extends'
      exact fun hm => hn (List.mem_append_left _ hm)
    rw [h'.other c o hc ho hn, h.other c o hc ho hn']
  byte o ho := by
    have hle : l.length * fat.bytsPerClus ≤ l'.length * fat.bytsPerClus := by
      obtain ⟨new, rfl, _⟩ := h.extends'
      refine Nat.mul_le_mul_right _ ?_
      rw [List.length_append]
      omega
    rw [h'.byte o ho]
    by_cases h2 : off + m ≤ o ∧ o < off + m + n
    · rw [if_pos h2, if_pos (by omega)]
      congr 1
      omega
    · rw [if_neg h2]
      by_cases hl : o < l'.length * fat.bytsPerClus
      · rw [if_pos hl, h.byte o hl]
        by_cases h1 : off ≤ o ∧ o < off + m
        · rw [if_pos h1, if_pos (by omega)]
        · rw [if_neg h1, if_neg (show ¬ (off ≤ o ∧ o < off + (m + n)) by omega)]
      · have hm : ¬ (off ≤ o ∧ o < off + m) := by
          rintro ⟨h1, h3⟩
          have := h.fits (by omega)
          omega
        rw [if_neg hl, if_neg (by omega), if_neg (by omega)]
  fits hmn := by
    by_cases hn : n = 0
    · have hm := h.fits (by omega)
      obtain ⟨new, rfl, _⟩ := h'.extends'
      rw [List.length_append, Nat.add_mul]
      omega
    · have := h'.fits hn
      omega

end Spliced

/-! ### The loops -/

section Loops
variable (w : fat.Wf) {e : Ptr}
include w

/-- The round of `ewrite` at `off`: the cursor goes to the offset's cluster, the chain
growing if need be, and `m` bytes are written there. -/
theorem run_ewriteRound {off m : Nat} (hoff : off < 2 ^ 32)
    (hm : off % fat.bytsPerClus + m ≤ fat.bytsPerClus) (buf : Buf) (hok : ∀ p m, buf.ok p m = true)
    (s : State) {l : List Nat} (hne : l ≠ []) (hchain : Chain fat s.disk l)
    (hholds : Holds (s.dirents e) l) {β : Type} (next : Nat × List Byte → Fs β)
    (hsteps : (do
      let _ ← relocClus fat e off true
      let d ← dirent e
      let r ← rwClus fat d.curClus true buf (off % fat.bytsPerClus) m
      next r : Fs β).Steps (Sound fat) s) :
    ∃ l' disk' c, ((do
        let _ ← relocClus fat e off true
        let d ← dirent e
        let r ← rwClus fat d.curClus true buf (off % fat.bytsPerClus) m
        next r : Fs β).run s =
          (next (m, [])).run ({ s with disk := disk' }.setCursor e c (off / fat.bytsPerClus))) ∧
      (next (m, [])).Steps (Sound fat) ({ s with disk := disk' }.setCursor e c (off / fat.bytsPerClus)) ∧
      Spliced fat l l' off m buf.data s.disk disk' ∧ l'[off / fat.bytsPerClus]? = some c := by
  obtain ⟨l', disk₁, c, hrun, hg, hc, _⟩ :=
    run_relocClus_alloc w hoff s hne hchain hholds (Prog.steps_bind_left hsteps)
  obtain ⟨disk', hw, hwr⟩ := run_rwClus_write w (hg.chain.get_inRange hc) hm buf hok
    ({ s with disk := disk₁ }.setCursor e c (off / fat.bytsPerClus))
  have hw' : (rwClus fat (({ s with disk := disk₁ }.setCursor e c (off / fat.bytsPerClus)).dirents e).curClus
      true buf (off % fat.bytsPerClus) m).run
      ({ s with disk := disk₁ }.setCursor e c (off / fat.bytsPerClus)) =
      .done (m, []) ({ s with disk := disk' }.setCursor e c (off / fat.bytsPerClus)) := by
    rw [State.setCursor_same]
    exact hw
  replace hsteps := Prog.steps_bind_done hsteps hrun
  replace hsteps := Prog.steps_bind_done hsteps (run_dirent ..)
  refine ⟨l', disk', c, ?_, Prog.steps_bind_done hsteps hw', ?_, hc⟩
  · rw [Prog.run_bind_done hrun, Prog.run_bind_done (run_dirent ..), Prog.run_bind_done hw']
  · have h2 := hwr.spliced w hg.chain hc rfl hm
    have := (hg.spliced w off buf.data).trans (by simpa using h2)
    simpa using this

/-- The loop of `ewrite` writes the rest of the request. -/
theorem run_ewriteLoop (buf : Buf) (hok : ∀ p m, buf.ok p m = true) {n : Nat} (fuel tot off : Nat)
    (htot : tot ≤ n) (hfuel : n - tot ≤ fuel) (hoff : off + (n - tot) < 2 ^ 32) (s : State)
    {l : List Nat} (hne : l ≠ []) (hchain : Chain fat s.disk l) (hholds : Holds (s.dirents e) l)
    (hsteps : (ewriteLoop fat e buf n fuel tot off).Steps (Sound fat) s) :
    ∃ l' disk' c k, (ewriteLoop fat e buf n fuel tot off).run s =
        .done n ({ s with disk := disk' }.setCursor e c k) ∧
      Spliced fat l l' off (n - tot) (fun i => buf.data (tot + i)) s.disk disk' ∧
      l'[k]? = some c := by
  induction fuel generalizing tot off s l with
  | zero =>
    obtain rfl : tot = n := by omega
    refine ⟨l, s.disk, _, _, ?_, ?_, hholds.cursor hne⟩
    · rw [State.setCursor_self { s with disk := s.disk } e rfl rfl]
      rfl
    · rw [Nat.sub_self]
      exact .refl hchain off _
  | succ fuel ih =>
    by_cases hend : tot < n
    · simp only [ewriteLoop, if_pos hend] at hsteps ⊢
      obtain ⟨m, hm⟩ : ∃ m, m = min (fat.bytsPerClus - off % fat.bytsPerClus) (n - tot) := ⟨_, rfl⟩
      have hmod := Nat.mod_lt off w.bytsPerClus_pos
      rw [← hm] at hsteps ⊢
      obtain ⟨l₁, disk₁, c₁, hrun, hsteps', hs, hc₁⟩ := run_ewriteRound w (by omega) (by omega)
        (buf.drop tot) (fun p m => hok _ _) s hne hchain hholds _ hsteps
      have hoff' : u32 (off + m) = off + m := u32_of_lt (by omega)
      rw [if_neg (by simp), hoff'] at hsteps'
      have hne₁ : l₁ ≠ [] := by rintro rfl; simp at hc₁
      have hfirst : l₁.headD 0 = l.headD 0 := by
        obtain ⟨new, rfl, _⟩ := hs.extends'
        cases l with
        | nil => exact absurd rfl hne
        | cons => rfl
      have hholds₁ : Holds (({ s with disk := disk₁ }.setCursor e c₁ (off / fat.bytsPerClus)).dirents e) l₁ := by
        rw [State.setCursor_same]
        exact ⟨hholds.first.trans hfirst.symm, fun _ => hc₁⟩
      obtain ⟨l', disk', c, k, hrun', hs', hc⟩ := ih (tot + m) (off + m) (by omega) (by omega) (by omega)
        ({ s with disk := disk₁ }.setCursor e c₁ (off / fat.bytsPerClus)) hne₁ hs.chain hholds₁ hsteps'
      refine ⟨l', disk', c, k, ?_, ?_, hc⟩
      · rw [hrun, if_neg (by simp), hoff', hrun']
        exact congrArg _ (State.setCursor_setCursor { s with disk := disk' } ..)
      · rw [show n - tot = m + (n - (tot + m)) by omega]
        refine hs.trans ?_
        simpa [Nat.add_assoc, Buf.drop] using hs'
    · obtain rfl : tot = n := by omega
      refine ⟨l, s.disk, _, _, ?_, ?_, hholds.cursor hne⟩
      · rw [State.setCursor_self { s with disk := s.disk } e rfl rfl]
        simp only [ewriteLoop, if_neg hend]
        rfl
      · rw [Nat.sub_self]
        exact .refl hchain off _

/-- The loop of `eread` copies out the rest of the request. -/
theorem run_ereadLoop (buf : Buf) (hok : ∀ p m, buf.ok p m = true) {n : Nat} (fuel tot off : Nat)
    (htot : tot ≤ n) (hfuel : n - tot ≤ fuel) (hoff : off + (n - tot) < 2 ^ 32) (s : State)
    {l : List Nat} (hchain : Chain fat s.disk l) (hholds : Holds (s.dirents e) l)
    (hfits : tot < n → off + (n - tot) ≤ l.length * fat.bytsPerClus) :
    ∃ c k, (ereadLoop fat e buf n fuel tot off).run s =
        .done (n, (List.range (n - tot)).map fun i => chainByte fat s.disk l (off + i))
          (s.setCursor e c k) ∧
      (l ≠ [] → l[k]? = some c) := by
  induction fuel generalizing tot off s with
  | zero =>
    obtain rfl : tot = n := by omega
    refine ⟨_, _, ?_, hholds.cursor⟩
    rw [State.setCursor_self s e rfl rfl, Nat.sub_self]
    rfl
  | succ fuel ih =>
    simp only [ereadLoop]
    rw [Prog.run_bind_done (run_dirent ..)]
    by_cases hend : tot < n
    · have hfit := hfits hend
      obtain ⟨m, hm⟩ : ∃ m, m = min (fat.bytsPerClus - off % fat.bytsPerClus) (n - tot) := ⟨_, rfl⟩
      have hmod := Nat.mod_lt off w.bytsPerClus_pos
      obtain ⟨c₁, hc₁⟩ := exists_cluster (l := l) (o := off) w (by omega)
      have hne : l ≠ [] := by rintro rfl; simp at hc₁
      have hcur := w.inRange_lt (hchain.get_inRange (hholds.cursor hne))
      have hoff' : u32 (off + m) = off + m := u32_of_lt (by omega)
      have hholds₁ : Holds ((s.setCursor e c₁ (off / fat.bytsPerClus)).dirents e) l := by
        rw [State.setCursor_same]
        exact ⟨hholds.first, fun _ => hc₁⟩
      obtain ⟨c, k, hrun, hc⟩ := ih (tot + m) (off + m) (by omega) (by omega) (by omega)
        (s.setCursor e c₁ (off / fat.bytsPerClus)) hchain hholds₁ (by omega)
      refine ⟨c, k, ?_, hc⟩
      rw [if_pos ⟨hcur, hend⟩,
        Prog.run_bind_done (run_relocClus_within w (by omega) hc₁ false s hchain hholds), ← hm,
        Prog.run_bind_done (run_dirent ..), State.setCursor_same,
        Prog.run_bind_done (run_rwClus_read w (hchain.get_inRange hc₁) (by omega) (buf.drop tot)
          (fun p m => hok _ _) _), if_neg (by simp), hoff', Prog.run_bind_done hrun,
        State.setCursor_setCursor]
      simp only [Prog.pure_eq, Prog.run_ret, Outcome.done.injEq, Prod.mk.injEq, true_and, and_true]
      rw [show n - tot = m + (n - (tot + m)) by omega, List.range_add, List.map_append, List.map_map]
      congr 1
      · refine List.map_congr_left fun i hi => ?_
        have hi : i < m := by simpa using hi
        obtain ⟨hdiv, hmod'⟩ := div_mod_add (b := fat.bytsPerClus) (o := off) (i := i) (by omega)
        rw [chainByte_eq (hdiv ▸ hc₁), hmod']
        rfl
      · refine List.map_congr_left fun i _ => ?_
        simp [Nat.add_assoc]
    · obtain rfl : tot = n := by omega
      refine ⟨_, _, ?_, hholds.cursor⟩
      rw [State.setCursor_self s e rfl rfl, Nat.sub_self, if_neg (fun h => hend h.2)]
      rfl

end Loops

/-! ### Truncating -/

/-- The clusters of `l` are free and nothing else has changed. -/
structure Freed (fat : Fat) (l : List Nat) (disk disk' : Disk) : Prop where
  entry : ∀ c, c ≤ fat.dataClusCnt + 1 →
    fatEntry fat disk' c = if c ∈ l then 0 else fatEntry fat disk c
  byte : ∀ c o, fat.InRange c → o < fat.bytsPerClus → clusByte fat disk' c o = clusByte fat disk c o

/-- A chain has no more clusters than the volume. -/
theorem Chain.length_le {disk : Disk} {l : List Nat} (h : Chain fat disk l) :
    l.length ≤ fat.dataClusCnt := by
  have hsub : l.toFinset ⊆ Finset.Icc 2 (fat.dataClusCnt + 1) := fun c hc =>
    Finset.mem_Icc.mpr (h.inRange c (List.mem_toFinset.mp hc))
  have := Finset.card_le_card hsub
  rw [List.toFinset_card_of_nodup h.nodup, Nat.card_Icc] at this
  omega

/-- The loop of `etrunc` frees the chain it is at the start of. -/
theorem run_etruncLoop (w : fat.Wf) (n clus : Nat) (s : State) {l : List Nat}
    (hchain : Chain fat s.disk l) (hn : l.length ≤ n) (hhead : ∀ c ∈ l.head?, clus = c)
    (hend : l = [] → ¬ (2 ≤ clus ∧ clus < fat32Eoc)) :
    ∃ disk', (etruncLoop fat n clus).run s = .done () { s with disk := disk' } ∧
      Freed fat l s.disk disk' := by
  induction l generalizing n clus s with
  | nil =>
    refine ⟨s.disk, ?_, fun c _ => by rw [if_neg (by simp)], fun _ _ _ _ => rfl⟩
    cases n <;> simp only [etruncLoop, if_neg (hend rfl)] <;> rfl
  | cons c rest ih =>
    obtain rfl : clus = c := hhead c rfl
    have hcr := hchain.inRange clus List.mem_cons_self
    obtain ⟨n, rfl⟩ : ∃ m, n = m + 1 := ⟨n - 1, by simp only [List.length_cons] at hn; omega⟩
    have hnd := List.nodup_cons.mp hchain.nodup
    have hset : ∀ c', fatEntry fat (setFat fat clus 0 s.disk) c' =
        if c' = clus then 0 else fatEntry fat s.disk c' :=
      fun c' => fatEntry_fatWrite s.disk (by decide)
    have hrest : Chain fat (setFat fat clus 0 s.disk) rest := by
      refine ⟨hchain.linked.tail.congr fun c' hc' => ?_,
        fun c' hc' => hchain.inRange c' (List.mem_cons_of_mem _ hc'), hnd.2⟩
      rw [hset, if_neg (by rintro rfl; exact hnd.1 hc')]
    obtain ⟨disk', hrun, hf⟩ := ih n (fatEntry fat s.disk clus)
      { s with disk := setFat fat clus 0 s.disk } hrest (by simpa using hn)
      (by
        intro d hd
        cases rest with
        | nil => simp at hd
        | cons d' rest' =>
          obtain rfl : d' = d := by simpa using hd
          exact hchain.linked.head)
      (by
        rintro rfl
        have := hchain.linked.last 0 clus rfl rfl
        omega)
    refine ⟨disk', ?_, fun c' hc' => ?_, fun c' o hc' ho => ?_⟩
    · simp only [etruncLoop, if_pos (show 2 ≤ clus ∧ clus < fat32Eoc from ⟨hcr.1, w.inRange_lt hcr⟩), readFat]
      rw [Prog.run_bind_done (run_readFatAt w s _ hcr.2), Prog.run_bind_done (run_freeClus w s hcr.2), hrun]
    · rw [hf.entry c' hc', hset]
      by_cases h1 : c' ∈ rest
      · rw [if_pos h1, if_pos (List.mem_cons_of_mem _ h1)]
      · by_cases h2 : c' = clus
        · rw [if_neg h1, if_pos h2, if_pos (by simp [h2])]
        · rw [if_neg h1, if_neg h2, if_neg (by simp [h1, h2])]
    · rw [hf.byte c' o hc' ho]
      exact clusByte_fatWrite w s.disk hcr.2 hc' ho _

end Farron
