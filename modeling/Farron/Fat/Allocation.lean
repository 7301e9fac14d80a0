import Farron.Fat.Volume

/-! Which cluster `alloc_clus` takes.

The search goes by the size of the FAT, which is a whole number of sectors, and takes the first
zero entry (`run_allocScan_first`). The entries beyond those of the data clusters, there only
because the FAT is rounded up, are searched as well: `alloc_clus` does what it should as long as
it does not come to one of them that is zero (`alloc_inside`). -/
namespace Farron
open Resumption
variable {fat : Fat}

/-- A geometry that is one: clusters are not empty, there is a FAT, and the FATs end at a sector
number. -/
structure Fat.Laid (fat : Fat) : Prop where
  secPerClus_pos : 0 < fat.bpb.secPerClus
  fatCnt_pos : 0 < fat.bpb.fatCnt
  fats : fat.bpb.rsvdSecCnt + fat.bpb.fatCnt * fat.bpb.fatSz < 2 ^ 32

/-- What allocating cluster `c` is to be: its entry goes from 0 to an end mark, its sectors become
zero and are sectors of the data area, and nothing else changes. -/
structure Takes (fat : Fat) (c : Nat) (disk disk' : Disk) : Prop where
  inRange : fat.InRange c
  free : fatEntry fat disk c = 0
  data : ∀ i, i < fat.bpb.secPerClus →
    fat.firstDataSec ≤ firstSecOfClus fat c + i ∧ firstSecOfClus fat c + i < fat.bpb.totSec
  marked : fat32Eoc ≤ fatEntry fat disk' c
  zeroed : ∀ i o, i < fat.bpb.secPerClus → o < bsize → disk' (firstSecOfClus fat c + i) o = 0
  same : ∀ sec o, (∀ i, i < fat.bpb.secPerClus → sec ≠ firstSecOfClus fat c + i) →
    ¬ (sec = fat.bpb.rsvdSecCnt + c / 128 ∧ 4 * (c % 128) ≤ o ∧ o < 4 * (c % 128) + 4) → disk' sec o = disk sec o

/-- What `alloc_clus` is to do: take a free data cluster, or report that there is none. -/
def AllocMeets (fat : Fat) (s : State) : Prop :=
  match (allocClus fat).run s with
  | .done c s' => Takes fat c s.disk s'.disk ∧ s' = { s with disk := s'.disk }
  | .stopped e => e = .panic "no clusters" ∧ ∀ c, fat.InRange c → fatEntry fat s.disk c ≠ 0
  | .blocked => False

/-- No entry of the FAT is free, or a data cluster's is. -/
def AllocRoom (fat : Fat) (disk : Disk) : Prop :=
  (∀ e, e < fat.bpb.fatSz * 128 → fatEntry fat disk e ≠ 0) ∨
    (fat.firstDataSec ≤ fat.bpb.totSec ∧ ∃ c, fat.InRange c ∧ fatEntry fat disk c = 0)

/-! ### The geometry -/

/-- What `fat32_init` computes, where nothing wraps. -/
structure Fat.Computed (fat : Fat) : Prop where
  bytsPerSec : fat.bpb.bytsPerSec = 512
  firstDataSec : fat.firstDataSec = fat.bpb.rsvdSecCnt + fat.bpb.fatCnt * fat.bpb.fatSz
  fats : fat.bpb.rsvdSecCnt + fat.bpb.fatSz ≤ fat.firstDataSec
  firstDataSec_lt : fat.firstDataSec < 2 ^ 32
  totSec_lt : fat.bpb.totSec < 2 ^ 32
  dataClusCnt : fat.dataClusCnt = u32 (fat.bpb.totSec + 2 ^ 32 - fat.firstDataSec) / fat.bpb.secPerClus

theorem Fat.Laid.computed {b : Sector} (hl : fat.Laid) (hb : Fat.mount b = .ok fat) : fat.Computed := by
  unfold Fat.mount at hb
  split at hb
  · cases hb
  · dsimp only at hb
    split at hb
    · cases hb
    · next hsec =>
      cases hb
      have hfats := hl.fats
      have hle := Nat.le_mul_of_pos_left (word32 b 36) hl.fatCnt_pos
      dsimp only at hfats hle hsec
      have hfirst := u32_of_lt hfats
      constructor
      · exact (not_not.mp hsec).symm
      · exact hfirst
      · dsimp only
        rw [hfirst]
        omega
      · dsimp only
        rw [hfirst]
        exact hfats
      · exact word32_lt b 32
      · rfl

theorem Fat.Computed.data_le (g : fat.Computed) (h : fat.firstDataSec ≤ fat.bpb.totSec) :
    fat.dataClusCnt * fat.bpb.secPerClus + fat.firstDataSec ≤ fat.bpb.totSec := by
  have hcnt : u32 (fat.bpb.totSec + 2 ^ 32 - fat.firstDataSec) = fat.bpb.totSec - fat.firstDataSec := by
    have := g.totSec_lt
    unfold u32
    omega
  have hle := Nat.div_mul_le_self (fat.bpb.totSec - fat.firstDataSec) fat.bpb.secPerClus
  rw [g.dataClusCnt, hcnt]
  omega

/-- The sectors of a data cluster are sectors of the data area. -/
theorem Fat.Computed.firstSec (g : fat.Computed) (hl : fat.Laid) (h : fat.firstDataSec ≤ fat.bpb.totSec) {c : Nat}
    (hc : fat.InRange c) : fat.firstDataSec ≤ firstSecOfClus fat c ∧
      firstSecOfClus fat c + fat.bpb.secPerClus ≤ fat.bpb.totSec := by
  obtain ⟨h2, hcnt⟩ := hc
  have hdata := g.data_le h
  have hpos := hl.secPerClus_pos
  have htot := g.totSec_lt
  have hlt : fat.dataClusCnt ≤ fat.dataClusCnt * fat.bpb.secPerClus := Nat.le_mul_of_pos_right _ hpos
  have hle : (c - 2 + 1) * fat.bpb.secPerClus ≤ fat.dataClusCnt * fat.bpb.secPerClus :=
    Nat.mul_le_mul_right _ (by omega)
  rw [Nat.add_mul, Nat.one_mul] at hle
  have hsub : u32 (c + 2 ^ 32 - 2) = c - 2 := by
    unfold u32
    omega
  rw [firstSecOfClus, hsub, u32_of_lt (by omega)]
  omega

/-! ### The search -/

theorem freeEntry_eq_some (h : fat.bpb.bytsPerSec = 512) {b : Sector} {j : Nat} :
    freeEntry fat b = some j ↔ word32 b (4 * j) = 0 ∧ j < 128 ∧ ∀ k, k < j → word32 b (4 * k) ≠ 0 := by
  unfold freeEntry
  rw [h, List.find?_range_eq_some]
  simp

theorem freeEntry_eq_none (h : fat.bpb.bytsPerSec = 512) {b : Sector} :
    freeEntry fat b = none ↔ ∀ j, j < 128 → word32 b (4 * j) ≠ 0 := by
  unfold freeEntry
  rw [h, List.find?_eq_none]
  simp

/-- Entry `j` of sector `i` of the FAT. -/
theorem fatEntry_at (disk : Disk) {i j : Nat} (h : j < 128) :
    fatEntry fat disk (i * 128 + j) = word32 (disk (fat.bpb.rsvdSecCnt + i)) (4 * j) := by
  have hq : (i * 128 + j) / 128 = i := by omega
  have hr : (i * 128 + j) % 128 = j := by omega
  rw [fatEntry, hq, hr]

theorem run_zeroSectors_done (n sec : Nat) (s : State) :
    ∃ disk', (zeroSectors n sec).run s = .done () { s with disk := disk' } := by
  induction n generalizing sec s with
  | zero => exact ⟨s.disk, rfl⟩
  | succ n ih =>
    obtain ⟨disk', hrun⟩ := ih (u32 (sec + 1)) (s.setSector sec (overwrite 0 512 fun _ => 0))
    exact ⟨disk', hrun⟩

/-- What the search relies on. -/
structure Fat.Searched (fat : Fat) : Prop where
  bytsPerSec : fat.bpb.bytsPerSec = 512
  sec_lt : ∀ i, i < fat.bpb.fatSz → fat.bpb.rsvdSecCnt + i < 2 ^ 32

theorem Fat.Computed.searched (g : fat.Computed) : fat.Searched := by
  refine ⟨g.bytsPerSec, fun i hi => ?_⟩
  have := g.fats
  have := g.firstDataSec_lt
  omega

theorem Fat.Wf.searched (w : fat.Wf) : fat.Searched := by
  refine ⟨w.bytsPerSec, fun i hi => ?_⟩
  have hu := fatSec_lt w hi
  unfold u32 at hu
  omega

section Search
variable (g : fat.Searched) {e : Nat} {s : State}
include g

/-- The search takes the first zero entry. -/
theorem run_allocScan_first (hz : fatEntry fat s.disk e = 0) (hmin : ∀ k, k < e → fatEntry fat s.disk k ≠ 0)
    (n i : Nat) (hi : i ≤ e / 128) (hn : i + n = fat.bpb.fatSz) (he : e / 128 < fat.bpb.fatSz) :
    (allocScan fat n i).run s =
      ((zeroClus fat (u32 e)).run { s with disk := setFat fat e (fat32Eoc + 7) s.disk }).andThen
        fun _ s' => .done (u32 e) s' := by
  induction n generalizing i with
  | zero => omega
  | succ n ih =>
    have hent : fat.bpb.bytsPerSec / 4 = 128 := by rw [g.bytsPerSec]
    simp only [allocScan, Prog.run_act, u32_of_lt (g.sec_lt i (by omega)), hent]
    by_cases hlast : e / 128 = i
    · have hsplit : e = i * 128 + e % 128 := by omega
      have hfound : freeEntry fat (s.disk (fat.bpb.rsvdSecCnt + i)) = some (e % 128) := by
        rw [freeEntry_eq_some g.bytsPerSec]
        refine ⟨?_, Nat.mod_lt _ (by decide), fun k hk => ?_⟩
        · rw [← fatEntry_at s.disk (Nat.mod_lt _ (by decide)), ← hsplit]
          exact hz
        · rw [← fatEntry_at s.disk (by omega)]
          exact hmin _ (by omega)
      rw [hfound]
      dsimp only
      rw [← hsplit, Prog.run_bind]
      simp only [setFat, hlast]
      rfl
    · have hnone : freeEntry fat (s.disk (fat.bpb.rsvdSecCnt + i)) = none := by
        rw [freeEntry_eq_none g.bytsPerSec]
        intro j hj
        rw [← fatEntry_at s.disk hj]
        exact hmin _ (by omega)
      rw [hnone]
      exact ih (i + 1) (by omega) (by omega)

theorem run_allocScan_none (hfull : ∀ e, e < fat.bpb.fatSz * 128 → fatEntry fat s.disk e ≠ 0) (n i : Nat)
    (hn : i + n = fat.bpb.fatSz) : (allocScan fat n i).run s = .stopped (.panic "no clusters") := by
  induction n generalizing i with
  | zero => rfl
  | succ n ih =>
    have hnone : freeEntry fat (s.disk (fat.bpb.rsvdSecCnt + i)) = none := by
      rw [freeEntry_eq_none g.bytsPerSec]
      intro j hj
      rw [← fatEntry_at s.disk hj]
      exact hfull _ (by omega)
    simp only [allocScan, Prog.run_act, u32_of_lt (g.sec_lt i (by omega)), hnone]
    exact ih (i + 1) (by omega)

/-- If some entry of the FAT is zero, the first one is taken. -/
theorem run_allocClus_first (hfree : ∃ e, e < fat.bpb.fatSz * 128 ∧ fatEntry fat s.disk e = 0) :
    ∃ e, e < fat.bpb.fatSz * 128 ∧ fatEntry fat s.disk e = 0 ∧ (∀ k, k < e → fatEntry fat s.disk k ≠ 0) ∧
      (allocClus fat).run s =
        ((zeroClus fat (u32 e)).run { s with disk := setFat fat e (fat32Eoc + 7) s.disk }).andThen
          fun _ s' => .done (u32 e) s' := by
  have hex : ∃ e, fatEntry fat s.disk e = 0 := hfree.imp fun _ h => h.2
  have hlt : Nat.find hex < fat.bpb.fatSz * 128 := by
    obtain ⟨e, he, hz⟩ := hfree
    exact (Nat.find_min' hex hz).trans_lt he
  have hmin : ∀ k, k < Nat.find hex → fatEntry fat s.disk k ≠ 0 := fun k hk => Nat.find_min hex hk
  exact ⟨Nat.find hex, hlt, Nat.find_spec hex, hmin,
    run_allocScan_first g (Nat.find_spec hex) hmin fat.bpb.fatSz 0 (Nat.zero_le _) (Nat.zero_add _) (by omega)⟩

omit g in
/-- The cluster found is marked and its sectors, which are numbered up from the first, zeroed. -/
theorem takes_of_run (g : fat.Computed) (hl : fat.Laid) (h : fat.firstDataSec ≤ fat.bpb.totSec)
    (hent : fat.dataClusCnt + 2 ≤ fat.bpb.fatSz * 128) {c : Nat} (hc : fat.InRange c) (hz : fatEntry fat s.disk c = 0) :
    ∃ disk', (zeroClus fat c).run { s with disk := setFat fat c (fat32Eoc + 7) s.disk } =
        .done () { s with disk := disk' } ∧ Takes fat c s.disk disk' := by
  obtain ⟨hfirst, hlast⟩ := g.firstSec hl h hc
  have htot := g.totSec_lt
  obtain ⟨disk', hrun, hdisk⟩ := run_zeroSectors fat.bpb.secPerClus (firstSecOfClus fat c)
    { s with disk := setFat fat c (fat32Eoc + 7) s.disk } (by omega)
  refine ⟨disk', hrun, hc, hz, fun i hi => ⟨by omega, by omega⟩, ?_, fun i o hi ho => ?_, fun sec o hsec ho => ?_⟩
  · -- the FAT is before the data area
    have hfats := g.fats
    have hsec : c / 128 < fat.bpb.fatSz := by
      have := hc.2
      omega
    have hmark : fatEntry fat disk' c = fatEntry fat (setFat fat c (fat32Eoc + 7) s.disk) c := by
      refine word32_congr fun i _ => ?_
      rw [hdisk, if_neg (by omega)]
    rw [hmark, setFat, fatEntry_fatWrite s.disk (by decide), if_pos rfl]
    exact Nat.le_add_right _ _
  · rw [hdisk, if_pos ⟨Nat.le_add_right _ _, by omega, ho⟩]
  · have hout : ¬ (firstSecOfClus fat c ≤ sec ∧ sec < firstSecOfClus fat c + fat.bpb.secPerClus ∧ o < 512) := by
      intro hin
      exact hsec (sec - firstSecOfClus fat c) (by omega) (by omega)
    rw [hdisk, if_neg hout]
    show setFat fat c (fat32Eoc + 7) s.disk sec o = s.disk sec o
    unfold setFat
    by_cases hfat : sec = fat.bpb.rsvdSecCnt + c / 128
    · subst hfat
      rw [Function.update_self, putWord32, overwrite_out _ _ (by omega)]
    · rw [Function.update_of_ne hfat]

end Search

/-- **`alloc_clus` takes a free data cluster, or reports that there is none, just if no entry of
the FAT is free or a data cluster is.** -/
theorem alloc_inside {b : Sector} (hb : Fat.mount b = .ok fat) (hl : fat.Laid)
    (hent : fat.dataClusCnt + 2 ≤ fat.bpb.fatSz * 128) (s : State) (h0 : fatEntry fat s.disk 0 ≠ 0)
    (h1 : fatEntry fat s.disk 1 ≠ 0) : AllocMeets fat s ↔ AllocRoom fat s.disk := by
  have g := hl.computed hb
  have hpos := hl.secPerClus_pos
  by_cases hfull : ∀ e, e < fat.bpb.fatSz * 128 → fatEntry fat s.disk e ≠ 0
  · have hrun : (allocClus fat).run s = .stopped (.panic "no clusters") :=
      run_allocScan_none g.searched hfull _ 0 (Nat.zero_add _)
    refine iff_of_true ?_ (.inl hfull)
    unfold AllocMeets
    rw [hrun]
    exact ⟨rfl, fun c hc => hfull c (by have := hc.2; omega)⟩
  · simp only [not_forall, not_not] at hfull
    obtain ⟨e₀, he₀, hz₀⟩ := hfull
    obtain ⟨e, he, hz, hmin, hrun⟩ := run_allocClus_first g.searched ⟨e₀, he₀, hz₀⟩
    constructor
    · intro h
      obtain ⟨disk', hzero⟩ := run_zeroSectors_done fat.bpb.secPerClus (firstSecOfClus fat (u32 e))
        { s with disk := setFat fat e (fat32Eoc + 7) s.disk }
      unfold AllocMeets at h
      rw [hrun, zeroClus, hzero] at h
      have htakes : Takes fat (u32 e) s.disk disk' := h.1
      have hdata := htakes.data 0 hpos
      exact .inr ⟨by omega, u32 e, htakes.inRange, htakes.free⟩
    · intro h
      obtain ⟨hwrap, c, hc, hcz⟩ := h.resolve_left fun h => h e₀ he₀ hz₀
      -- the first zero entry is that of a data cluster
      have hle : e ≤ c := by
        by_contra hlt
        exact hmin c (by omega) hcz
      have h2 : 2 ≤ e := by
        by_contra hlt
        have hcase : e = 0 ∨ e = 1 := by omega
        rcases hcase with rfl | rfl
        · exact h0 hz
        · exact h1 hz
      have hr : fat.InRange e := ⟨h2, hle.trans hc.2⟩
      have he32 : e < 2 ^ 32 := by
        have := g.data_le hwrap
        have := Nat.le_mul_of_pos_right fat.dataClusCnt hpos
        have := g.totSec_lt
        have := g.fats
        have := hr.2
        omega
      obtain ⟨disk', hzero, htakes⟩ := takes_of_run (s := s) g hl hwrap hent hr hz
      unfold AllocMeets
      rw [hrun, u32_of_lt he32, hzero]
      exact ⟨htakes, rfl⟩

/-! A volume of one data cluster, whose FAT is a sector. -/

/-- Its sector 0. -/
def tinyBoot : Sector := fun o =>
  if o = 82 then 0x46 else if o = 83 then 0x41 else if o = 84 then 0x54 else if o = 85 then 0x33 else if o = 86 then 0x32
  else if o = 12 then 2 else if o = 13 then 1 else if o = 14 then 1 else if o = 16 then 1 else if o = 32 then 3
  else if o = 36 then 1 else if o = 44 then 2 else 0

def tinyFat : Fat := ⟨⟨512, 1, 1, 1, 3, 1, 2⟩, 2, 1, 1, 512⟩

/-- The first `n` entries of its FAT are taken, the others free. -/
def tinyState (n : Nat) : State where
  disk := fun sec o => if sec = 0 then tinyBoot o else if sec = 1 ∧ o < 4 * n then 0xff else 0
  dirents := fun _ => Dirent.zero
  lru := []

theorem mount_tinyBoot : Fat.mount tinyBoot = .ok tinyFat := rfl

theorem tinyFat_laid : tinyFat.Laid := ⟨by decide, by decide, by decide⟩

theorem alloc_inside_tiny : AllocMeets tinyFat (tinyState 2) :=
  (alloc_inside mount_tinyBoot tinyFat_laid (by decide) (tinyState 2) (by decide) (by decide)).mpr
    (.inr ⟨by decide, 2, by decide, by decide⟩)

/-- With the data cluster taken, `alloc_clus` returns a cluster that the volume does not have. -/
theorem not_allocMeets : ¬ ∀ (b : Sector) (fat : Fat), Fat.mount b = .ok fat → fat.Laid →
    fat.dataClusCnt + 2 ≤ fat.bpb.fatSz * 128 → ∀ s : State, fatEntry fat s.disk 0 ≠ 0 → fatEntry fat s.disk 1 ≠ 0 →
      AllocMeets fat s := by
  intro h
  have hmeets := h tinyBoot tinyFat mount_tinyBoot tinyFat_laid (by decide) (tinyState 3) (by decide) (by decide)
  obtain ⟨e, he, hz, -, hrun⟩ := run_allocClus_first (s := tinyState 3) (tinyFat_laid.computed mount_tinyBoot).searched
    ⟨3, by decide, by decide⟩
  have h3 : ∀ k, k < 3 → fatEntry tinyFat (tinyState 3).disk k ≠ 0 := by decide
  have hge : 3 ≤ e := by
    by_contra hlt
    exact h3 e (by omega) hz
  have he32 : u32 e = e := by
    have : tinyFat.bpb.fatSz = 1 := rfl
    exact u32_of_lt (by omega)
  obtain ⟨disk', hzero⟩ := run_zeroSectors_done tinyFat.bpb.secPerClus (firstSecOfClus tinyFat (u32 e))
    { tinyState 3 with disk := setFat tinyFat e (fat32Eoc + 7) (tinyState 3).disk }
  unfold AllocMeets at hmeets
  rw [hrun, zeroClus, hzero] at hmeets
  have htakes : Takes tinyFat (u32 e) (tinyState 3).disk disk' := hmeets.1
  have hr := htakes.inRange.2
  rw [he32] at hr
  have hcnt : tinyFat.dataClusCnt = 1 := rfl
  omega

end Farron
