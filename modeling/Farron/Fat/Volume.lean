import Farron.Fat.Files
import Mathlib.Data.List.Basic

/-! What the cluster functions do to a volume, run alone.

A disk is seen through its FAT entries (`fatEntry`) and the bytes of its data
clusters (`clusByte`); each function below is given the change it makes in that
view, with its result. `Sound` collects what these results assume of the steps of
a run: that a search of the FAT finds a free entry of a data cluster, and that the
value `reloc_clus` reads is not negative as an `int`. -/
namespace Farron
open Resumption
variable {fat : Fat}

/-- Sector `i` of the FAT, searched by `alloc_clus`, has a zero entry of a data
cluster, or no zero entry and is not the last. -/
def AllocFinds (fat : Fat) (i : Nat) (s : State) : Prop :=
  match freeEntry fat (s.disk (u32 (fat.bpb.rsvdSecCnt + i))) with
  | some j => fat.InRange (i * (fat.bpb.bytsPerSec / 4) + j)
  | none => i + 1 < fat.bpb.fatSz

/-- `alloc_clus` always finds a free entry of a data cluster. -/
def Allocs (fat : Fat) : Label → State → Prop
  | .allocScan i, s => AllocFinds fat i s
  | _, _ => True

instance (fat : Fat) (i : Nat) (s : State) : Decidable (AllocFinds fat i s) :=
  match h : freeEntry fat (s.disk (u32 (fat.bpb.rsvdSecCnt + i))) with
  | some j => decidable_of_iff (fat.InRange (i * (fat.bpb.bytsPerSec / 4) + j)) (by simp [AllocFinds, h])
  | none => decidable_of_iff (i + 1 < fat.bpb.fatSz) (by simp [AllocFinds, h])

instance (fat : Fat) : ∀ l s, Decidable (Allocs fat l s)
  | .allocScan i, s => inferInstanceAs (Decidable (AllocFinds fat i s))
  | .plain, _ | .relocRead _, _ => isTrue trivial

/-- Walking forward, `reloc_clus` reads no value with the top bit set. -/
def Unsigned (fat : Fat) : Label → State → Prop
  | .relocRead c, s => fatEntry fat s.disk c < 2 ^ 31
  | _, _ => True

instance (fat : Fat) : ∀ l s, Decidable (Unsigned fat l s)
  | .relocRead c, s => inferInstanceAs (Decidable (fatEntry fat s.disk c < 2 ^ 31))
  | .plain, _ | .allocScan _, _ => isTrue trivial

def Sound (fat : Fat) (l : Label) (s : State) : Prop := Allocs fat l s ∧ Unsigned fat l s

instance (fat : Fat) (l : Label) (s : State) : Decidable (Sound fat l s) :=
  inferInstanceAs (Decidable (Allocs fat l s ∧ Unsigned fat l s))

/-! ### Writes, seen in the FAT and in the clusters -/

theorem sector_lt (w : fat.Wf) {o : Nat} (ho : o < fat.bytsPerClus) : o / 512 < fat.bpb.secPerClus := by
  rw [Nat.div_lt_iff_lt_mul (by decide), ← w.bytsPerClus_eq]
  exact ho

section Writes
variable (w : fat.Wf) (disk : Disk)

theorem fatEntry_fatWrite {c c' v : Nat} (hv : v < 2 ^ 32) :
    fatEntry fat (Function.update disk (fat.bpb.rsvdSecCnt + c / 128)
      (putWord32 (4 * (c % 128)) v (disk (fat.bpb.rsvdSecCnt + c / 128)))) c' =
      if c' = c then v else fatEntry fat disk c' := by
  unfold fatEntry
  by_cases hs : c' / 128 = c / 128
  · rw [hs, Function.update_self]
    by_cases hc : c' = c
    · rw [if_pos hc, hc, word32_putWord32 _ _ hv]
    · rw [if_neg hc, word32_putWord32_ne _ _ (by omega)]
  · rw [Function.update_of_ne (by omega), if_neg (by rintro rfl; exact hs rfl)]

include w

theorem clusByte_fatWrite {c c' o : Nat} (hc : c ≤ fat.dataClusCnt + 1) (hc' : fat.InRange c')
    (ho : o < fat.bytsPerClus) (f : Sector → Sector) :
    clusByte fat (Function.update disk (fat.bpb.rsvdSecCnt + c / 128)
      (f (disk (fat.bpb.rsvdSecCnt + c / 128)))) c' o = clusByte fat disk c' o := by
  simp only [clusByte_eq]
  have hi := sector_lt w ho
  have hdata := (w.firstSec_data hc' hi).1
  have hfat := (w.fatSec hc).2
  have := w.fats
  rw [Function.update_of_ne (by omega)]

theorem fatEntry_dataWrite {c sec : Nat} (hc : c ≤ fat.dataClusCnt + 1) (hs : fat.firstDataSec ≤ sec)
    (b : Sector) : fatEntry fat (Function.update disk sec b) c = fatEntry fat disk c := by
  have hfat := (w.fatSec hc).2
  have := w.fats
  unfold fatEntry
  rw [Function.update_of_ne (by omega)]

theorem clusByte_dataWrite {c c' i o : Nat} (hc : fat.InRange c) (hc' : fat.InRange c')
    (hi : i < fat.bpb.secPerClus) (ho : o < fat.bytsPerClus) (pos m : Nat) (src : Nat → Byte) :
    clusByte fat (Function.update disk (firstSecOfClus fat c + i)
      (overwrite pos m src (disk (firstSecOfClus fat c + i)))) c' o =
      if c' = c ∧ o / 512 = i ∧ pos ≤ o % 512 ∧ o % 512 < pos + m then src (o % 512 - pos)
      else clusByte fat disk c' o := by
  have hj := sector_lt w ho
  simp only [clusByte_eq]
  by_cases he : firstSecOfClus fat c' + o / 512 = firstSecOfClus fat c + i
  · obtain ⟨rfl, rfl⟩ := w.firstSec_inj hc' hc hj hi he
    rw [Function.update_self]
    unfold overwrite
    simp only [true_and]
  · rw [Function.update_of_ne he, if_neg]
    rintro ⟨rfl, rfl, _⟩
    exact he rfl

end Writes

/-! ### The FAT -/

section Fat
variable (w : fat.Wf) (s : State)
include w

theorem run_readFatAt (l : Label) {c : Nat} (hc : c ≤ fat.dataClusCnt + 1) :
    (readFatAt fat l c).run s = .done (fatEntry fat s.disk c) s := by
  have h1 : ¬ c ≥ fat32Eoc := by have := w.clusters; omega
  have hu : u32 (fat.dataClusCnt + 1) = fat.dataClusCnt + 1 :=
    u32_of_lt (by have := w.clusters_lt; omega)
  have h2 : ¬ c > u32 (fat.dataClusCnt + 1) := by omega
  rw [readFatAt, if_neg h1, if_neg h2, Prog.run_bind_done (run_breadAt ..), (w.fatSec hc).1, w.fatOffset hc]
  rfl

/-- The section of a read starts in the state the read starts in. -/
theorem steps_readFatAt {P : Label → State → Prop} {l : Label} {c : Nat}
    (hc : c ≤ fat.dataClusCnt + 1) (h : (readFatAt fat l c).Steps P s) : P l s := by
  have h1 : ¬ c ≥ fat32Eoc := by have := w.clusters; omega
  have hu : u32 (fat.dataClusCnt + 1) = fat.dataClusCnt + 1 :=
    u32_of_lt (by have := w.clusters_lt; omega)
  have h2 : ¬ c > u32 (fat.dataClusCnt + 1) := by omega
  rw [readFatAt, if_neg h1, if_neg h2] at h
  exact h.1

/-- The disk after FAT entry `c` is set to `v`. -/
def setFat (fat : Fat) (c v : Nat) (disk : Disk) : Disk :=
  Function.update disk (fat.bpb.rsvdSecCnt + c / 128)
    (putWord32 (4 * (c % 128)) v (disk (fat.bpb.rsvdSecCnt + c / 128)))

omit w in
theorem fatEntry_lt (disk : Disk) (c : Nat) : fatEntry fat disk c < 2 ^ 32 := word32_lt ..

theorem run_writeFat {c : Nat} (v : Nat) (hc : c ≤ fat.dataClusCnt + 1) :
    (writeFat fat c v).run s = .done 0 { s with disk := setFat fat c v s.disk } := by
  have hu : u32 (fat.dataClusCnt + 1) = fat.dataClusCnt + 1 :=
    u32_of_lt (by have := w.clusters_lt; omega)
  have h2 : ¬ c > u32 (fat.dataClusCnt + 1) := by omega
  rw [writeFat, if_neg h2, Prog.run_bind_done (run_bwrite ..), (w.fatSec hc).1, w.fatOffset hc]
  rfl

theorem run_freeClus {c : Nat} (hc : c ≤ fat.dataClusCnt + 1) :
    (freeClus fat c).run s = .done () { s with disk := setFat fat c 0 s.disk } := by
  rw [freeClus, Prog.run_bind_done (run_writeFat w s 0 hc)]
  rfl

end Fat

/-! ### Zeroing and allocating a cluster -/

/-- Sectors `sec .. sec + n - 1` are zero in `disk'` and the others are `disk`'s. -/
def Zeroed (sec n : Nat) (disk disk' : Disk) : Prop :=
  ∀ t o, disk' t o = if sec ≤ t ∧ t < sec + n ∧ o < 512 then 0 else disk t o

theorem run_zeroSectors (n sec : Nat) (s : State) (h : sec + n ≤ 2 ^ 32) :
    ∃ disk', (zeroSectors n sec).run s = .done () { s with disk := disk' } ∧
      Zeroed sec n s.disk disk' := by
  induction n generalizing sec s with
  | zero =>
    refine ⟨s.disk, rfl, fun t o => ?_⟩
    rw [if_neg (by omega)]
  | succ n ih =>
    by_cases hn : n = 0
    · subst hn
      refine ⟨_, rfl, fun t o => ?_⟩
      by_cases ht : t = sec
      · subst ht
        rw [Function.update_self]
        unfold overwrite
        simp
      · rw [Function.update_of_ne ht, if_neg (by omega)]
    · have hs : u32 (sec + 1) = sec + 1 := u32_of_lt (by omega)
      obtain ⟨disk', hrun, hz⟩ := ih (sec + 1) (s.setSector sec (overwrite 0 512 fun _ => 0)) (by omega)
      refine ⟨disk', ?_, fun t o => ?_⟩
      · rw [zeroSectors, Prog.run_bind_done (run_bwrite ..), hs, bsize_eq, hrun]
        rfl
      · rw [hz t o]
        by_cases ht : t = sec
        · subst ht
          rw [if_neg (by omega), State.setSector_same]
          unfold overwrite
          simp
        · rw [State.setSector_ne _ _ _ ht]
          by_cases hc : sec ≤ t ∧ t < sec + (n + 1) ∧ o < 512
          · rw [if_pos (by omega), if_pos hc]
          · rw [if_neg (by omega), if_neg hc]

/-- The change of `alloc_clus`: entry `c` of the FAT goes from 0 to an end mark and
the cluster is zeroed. -/
structure Allocated (fat : Fat) (c : Nat) (disk disk' : Disk) : Prop where
  inRange : fat.InRange c
  free : fatEntry fat disk c = 0
  entry : ∀ c', c' ≤ fat.dataClusCnt + 1 →
    fatEntry fat disk' c' = if c' = c then fat32Eoc + 7 else fatEntry fat disk c'
  byte : ∀ c' o, fat.InRange c' → o < fat.bytsPerClus →
    clusByte fat disk' c' o = if c' = c then 0 else clusByte fat disk c' o

section Alloc
variable (w : fat.Wf)
include w

theorem freeEntry_zero {b : Sector} {j : Nat} (h : freeEntry fat b = some j) :
    j < 128 ∧ word32 b (4 * j) = 0 := by
  rw [freeEntry, w.bytsPerSec] at h
  have hm := List.mem_of_find?_eq_some h
  have hz := List.find?_some h
  refine ⟨?_, by simpa using hz⟩
  have : bsize / 4 = 128 := rfl
  simpa [this] using hm

theorem zeroed_allocated {c : Nat} {disk disk' : Disk} (hc : fat.InRange c)
    (hfree : fatEntry fat disk c = 0)
    (hz : Zeroed (firstSecOfClus fat c) fat.bpb.secPerClus (setFat fat c (fat32Eoc + 7) disk) disk') :
    Allocated fat c disk disk' where
  inRange := hc
  free := hfree
  entry c' hc' := by
    have hfat := (w.fatSec hc').2
    have hdata := (w.firstSec_data hc w.secPerClus_pos).1
    have := w.fats
    have hsame : fatEntry fat disk' c' = fatEntry fat (setFat fat c (fat32Eoc + 7) disk) c' := by
      refine word32_congr fun i _ => ?_
      rw [hz, if_neg (by omega)]
    rw [hsame, setFat, fatEntry_fatWrite disk (by decide)]
  byte c' o hc' ho := by
    have hi := sector_lt w ho
    rw [clusByte_eq, hz]
    by_cases he : c' = c
    · subst he
      rw [if_pos ⟨Nat.le_add_right .., Nat.add_lt_add_left hi _, Nat.mod_lt _ (by decide)⟩, if_pos rfl]
    · rw [if_neg he, if_neg]
      · exact clusByte_fatWrite w disk hc.2 hc' ho _
      · rintro ⟨h1, h2, _⟩
        obtain ⟨j, hj⟩ : ∃ j, firstSecOfClus fat c' + o / 512 = firstSecOfClus fat c + j :=
          ⟨firstSecOfClus fat c' + o / 512 - firstSecOfClus fat c, by omega⟩
        exact he (w.firstSec_inj hc' hc hi (by omega) hj).1

/-- The FAT's sectors are sector numbers. -/
theorem fatSec_lt {i : Nat} (hi : i < fat.bpb.fatSz) :
    u32 (fat.bpb.rsvdSecCnt + i) = fat.bpb.rsvdSecCnt + i := by
  have := w.fats
  have := w.data
  refine u32_of_lt ?_
  by_contra hge
  have hz : fat.dataClusCnt = 0 := by
    rcases Nat.eq_zero_or_pos fat.dataClusCnt with h0 | h0
    · exact h0
    · have := Nat.mul_pos h0 w.secPerClus_pos
      omega
  omega

theorem run_allocScan (n i : Nat) (s : State) (hn : i + n = fat.bpb.fatSz) (hpos : 0 < n)
    (h : (allocScan fat n i).Steps (Allocs fat) s) :
    ∃ c disk', (allocScan fat n i).run s = .done c { s with disk := disk' } ∧
      Allocated fat c s.disk disk' := by
  induction n generalizing i with
  | zero => omega
  | succ n ih =>
    have hsec : u32 (fat.bpb.rsvdSecCnt + i) = fat.bpb.rsvdSecCnt + i := fatSec_lt w (by omega)
    simp only [allocScan, Prog.steps_act, Prog.run_act] at h ⊢
    obtain ⟨hA, hnext⟩ := h
    simp only [Allocs, AllocFinds] at hA
    rw [hsec] at hA hnext ⊢
    cases hf : freeEntry fat (s.disk (fat.bpb.rsvdSecCnt + i)) with
    | none =>
      simp only [hf] at hA hnext ⊢
      exact ih (i + 1) (by omega) (by omega) (hnext s rfl)
    | some j =>
      simp only [hf] at hA hnext ⊢
      obtain ⟨hj, hzero⟩ := freeEntry_zero w hf
      have h128 : fat.bpb.bytsPerSec / 4 = 128 := by rw [w.bytsPerSec]; rfl
      rw [h128] at hA ⊢
      have hq : (i * 128 + j) / 128 = i := by omega
      have hr : (i * 128 + j) % 128 = j := by omega
      have hlt : i * 128 + j < 2 ^ 32 := by
        have := w.clusters_lt
        have := hA.2
        omega
      rw [u32_of_lt hlt]
      have hlast := (w.firstSec_data hA
        (show fat.bpb.secPerClus - 1 < fat.bpb.secPerClus by have := w.secPerClus_pos; omega)).2
      obtain ⟨disk', hrun, hz⟩ := run_zeroSectors fat.bpb.secPerClus
        (firstSecOfClus fat (i * 128 + j))
        (s.setSector (fat.bpb.rsvdSecCnt + i) (putWord32 (4 * j) (fat32Eoc + 7)))
        (by have := w.secPerClus_pos; omega)
      refine ⟨i * 128 + j, disk', ?_, zeroed_allocated w hA ?_ ?_⟩
      · rw [zeroClus, Prog.run_bind_done hrun]
        rfl
      · rw [fatEntry, hq, hr]
        exact hzero
      · intro t o
        rw [hz t o, setFat, hq, hr]
        rfl

theorem run_allocClus (s : State) (h : (allocClus fat).Steps (Allocs fat) s) :
    ∃ c disk', (allocClus fat).run s = .done c { s with disk := disk' } ∧
      Allocated fat c s.disk disk' := by
  have hpos : 0 < fat.bpb.fatSz := by have := w.entries; omega
  exact run_allocScan w _ 0 s (Nat.zero_add _) hpos h

end Alloc

/-! ### Transfers inside a cluster -/

/-- Bytes `off .. off + n - 1` of cluster `c` become `data`'s first `n`. -/
structure Written (fat : Fat) (c off n : Nat) (data : Nat → Byte) (disk disk' : Disk) : Prop where
  entry : ∀ c', c' ≤ fat.dataClusCnt + 1 → fatEntry fat disk' c' = fatEntry fat disk c'
  byte : ∀ c' o, fat.InRange c' → o < fat.bytsPerClus → clusByte fat disk' c' o =
    if c' = c ∧ off ≤ o ∧ o < off + n then data (o - off) else clusByte fat disk c' o

section Transfer
variable (w : fat.Wf) {c off n : Nat} (hc : fat.InRange c) (hn : off + n ≤ fat.bytsPerClus)
include w

theorem bytsPerClus_lt : fat.bytsPerClus < 2 ^ 17 := by
  have := w.secPerClus_lt
  rw [w.bytsPerClus_eq]
  omega

include hc hn

/-- The first sector of a transfer is inside the cluster, unless nothing is moved. -/
theorem transfer_sec (h : 0 < n) :
    u32 (firstSecOfClus fat c + off / fat.bpb.bytsPerSec) = firstSecOfClus fat c + off / 512 := by
  have hi := sector_lt w (show off < fat.bytsPerClus by omega)
  rw [w.bytsPerSec]
  exact u32_of_lt (w.firstSec_data hc hi).2

/-- The write loop, `tot` bytes into the transfer. -/
theorem run_rwClusLoop_write (buf : Buf) (hok : ∀ p m, buf.ok p m = true) (fuel tot sec : Nat)
    (s : State) (htot : tot ≤ n) (hfuel : n - tot ≤ fuel)
    (hsec : tot < n → sec = firstSecOfClus fat c + (off + tot) / 512) :
    ∃ disk', (rwClusLoop true buf n fuel tot (off % 512 + tot) sec).run s =
        .done (n, []) { s with disk := disk' } ∧
      Written fat c (off + tot) (n - tot) (fun i => buf.data (tot + i)) s.disk disk' := by
  have hlt := bytsPerClus_lt w
  induction fuel generalizing tot sec s with
  | zero =>
    have : tot = n := by omega
    subst this
    refine ⟨s.disk, rfl, fun _ _ => rfl, fun c' o _ _ => ?_⟩
    rw [if_neg (by omega)]
  | succ fuel ih =>
    by_cases hend : tot < n
    · have hmod : (off % 512 + tot) % 512 = (off + tot) % 512 := Nat.mod_add_mod ..
      obtain ⟨m, hm⟩ : ∃ m, m = min (512 - (off + tot) % 512) (n - tot) := ⟨_, rfl⟩
      have hi := sector_lt w (show off + tot < fat.bytsPerClus by omega)
      have hpos : 0 < m := by omega
      have hoff : u32 (off % 512 + tot + m) = off % 512 + (tot + m) := by
        rw [u32_of_lt (by omega)]
        omega
      have hsec' : tot + m < n →
          u32 (sec + 1) = firstSecOfClus fat c + (off + (tot + m)) / 512 := by
        intro hlt'
        have hnext := sector_lt w (show off + (tot + m) < fat.bytsPerClus by omega)
        have hdiv : (off + (tot + m)) / 512 = (off + tot) / 512 + 1 := by omega
        have := (w.firstSec_data hc hnext).2
        rw [hsec hend, u32_of_lt (by omega)]
        omega
      obtain ⟨disk', hrun, hw⟩ := ih (tot + m) (u32 (sec + 1))
        (s.setSector sec (overwrite ((off + tot) % 512) m fun i => buf.data (tot + i)))
        (by omega) (by omega) hsec'
      refine ⟨disk', ?_, fun c' hc' => ?_, fun c' o hc' ho => ?_⟩
      · simp only [rwClusLoop, bsize_eq, if_pos hend, hok, if_true, hmod, ← hm, hoff]
        rw [Prog.run_bind_done (run_bwrite ..), hrun]
        rfl
      · rw [hw.entry c' hc', hsec hend]
        exact fatEntry_dataWrite w _ hc' (w.firstSec_data hc hi).1 _
      · rw [hw.byte c' o hc' ho, hsec hend]
        have hdata := clusByte_dataWrite w s.disk hc hc' hi ho ((off + tot) % 512) m
          fun i => buf.data (tot + i)
        simp only [State.setSector]
        rw [hdata]
        by_cases hcc : c' = c
        · simp only [hcc, true_and]
          by_cases h1 : off + (tot + m) ≤ o ∧ o < off + (tot + m) + (n - (tot + m))
          · rw [if_pos h1, if_pos (by omega)]
            congr 1
            omega
          · rw [if_neg h1]
            by_cases h2 : off + tot ≤ o ∧ o < off + tot + m
            · rw [if_pos (by omega), if_pos (by omega)]
              congr 1
              omega
            · rw [if_neg (by omega), if_neg (by omega)]
        · simp only [hcc, false_and, if_false]
    · have : tot = n := by omega
      subst this
      refine ⟨s.disk, ?_, fun _ _ => rfl, fun c' o _ _ => ?_⟩
      · simp only [rwClusLoop, bsize_eq, if_neg hend]
        rfl
      · rw [if_neg (by omega)]

theorem run_rwClus_write (buf : Buf) (hok : ∀ p m, buf.ok p m = true) (s : State) :
    ∃ disk', (rwClus fat c true buf off n).run s = .done (n, []) { s with disk := disk' } ∧
      Written fat c off n buf.data s.disk disk' := by
  have hlt := bytsPerClus_lt w
  have hin : ¬ u32 (off + n) > fat.bytsPerClus := by
    rw [u32_of_lt (by omega)]
    omega
  obtain ⟨disk', hrun, hw⟩ := run_rwClusLoop_write w hc hn buf hok n 0
    (u32 (firstSecOfClus fat c + off / fat.bpb.bytsPerSec)) s (Nat.zero_le _) (by omega)
    fun h => transfer_sec w hc hn h
  refine ⟨disk', ?_, ?_⟩
  · simp only [rwClus, if_neg hin, w.bytsPerSec, bsize_eq] at hrun ⊢
    exact hrun
  · simpa using hw

theorem run_rwClusLoop_read (buf : Buf) (hok : ∀ p m, buf.ok p m = true) (s : State)
    (fuel tot sec : Nat) (htot : tot ≤ n) (hfuel : n - tot ≤ fuel)
    (hsec : tot < n → sec = firstSecOfClus fat c + (off + tot) / 512) :
    (rwClusLoop false buf n fuel tot (off % 512 + tot) sec).run s =
      .done (n, (List.range (n - tot)).map fun i => clusByte fat s.disk c (off + tot + i)) s := by
  have hlt := bytsPerClus_lt w
  induction fuel generalizing tot sec with
  | zero =>
    have : tot = n := by omega
    subst this
    simp only [rwClusLoop, Nat.sub_self, List.range_zero, List.map_nil]
    rfl
  | succ fuel ih =>
    by_cases hend : tot < n
    · have hmod : (off % 512 + tot) % 512 = (off + tot) % 512 := Nat.mod_add_mod ..
      obtain ⟨m, hm⟩ : ∃ m, m = min (512 - (off + tot) % 512) (n - tot) := ⟨_, rfl⟩
      have hoff : u32 (off % 512 + tot + m) = off % 512 + (tot + m) := by
        rw [u32_of_lt (by omega)]
        omega
      have hsec' : tot + m < n →
          u32 (sec + 1) = firstSecOfClus fat c + (off + (tot + m)) / 512 := by
        intro hlt'
        have hnext := sector_lt w (show off + (tot + m) < fat.bytsPerClus by omega)
        have := (w.firstSec_data hc hnext).2
        rw [hsec hend, u32_of_lt (by omega)]
        omega
      simp only [rwClusLoop, bsize_eq, if_pos hend, hok, if_true, hmod, ← hm, hoff, Bool.false_eq_true, if_false]
      rw [Prog.run_bind_done (run_bread ..), Prog.run_bind_done (ih (tot + m) _ (by omega) (by omega) hsec')]
      have hsplit : n - tot = m + (n - (tot + m)) := by omega
      simp only [Prog.pure_eq, Prog.run_ret, Outcome.done.injEq, Prod.mk.injEq, true_and, and_true]
      rw [hsplit, List.range_add, List.map_append, List.map_map]
      congr 1
      · refine List.map_congr_left fun i hi => ?_
        have hi : i < m := by simpa using hi
        rw [clusByte_eq, hsec hend]
        congr 1
        · congr 1
          omega
        · omega
      · refine List.map_congr_left fun i _ => ?_
        simp only [Function.comp_apply]
        congr 1
        omega
    · have : tot = n := by omega
      subst this
      simp only [rwClusLoop, bsize_eq, if_neg hend, Nat.sub_self, List.range_zero, List.map_nil]
      rfl

theorem run_rwClus_read (buf : Buf) (hok : ∀ p m, buf.ok p m = true) (s : State) :
    (rwClus fat c false buf off n).run s =
      .done (n, (List.range n).map fun i => clusByte fat s.disk c (off + i)) s := by
  have hlt := bytsPerClus_lt w
  have hin : ¬ u32 (off + n) > fat.bytsPerClus := by
    rw [u32_of_lt (by omega)]
    omega
  have hrun := run_rwClusLoop_read w hc hn buf hok s n 0
    (u32 (firstSecOfClus fat c + off / fat.bpb.bytsPerSec)) (Nat.zero_le _) (by omega)
    fun h => transfer_sec w hc hn h
  simp only [rwClus, if_neg hin, w.bytsPerSec, bsize_eq] at hrun ⊢
  simpa using hrun

end Transfer

end Farron
