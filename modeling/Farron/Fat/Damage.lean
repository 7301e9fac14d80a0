import Farron.Fat.Allocation
import Farron.Fat.Chain
import Farron.Fat.Slots

/-! What a damaged FAT can do to the cursor of an entry.

Of the FAT nothing is assumed here. `clusAt` is the walk that `reloc_clus` makes from the first
cluster, over whatever it reads; where the walk ends, `alloc_clus` takes the free entries of the
FAT one after the other (`frees`). The cursor stays on data clusters, and the functions agree
on where a file ends, just if both the values met and the entries taken are sound
(`damageSafe_iff`). -/
namespace Farron
open Resumption
variable {fat : Fat} {e : Ptr}

/-! ### The walk -/

/-- `read_fat` on a disk. -/
def nextClus (fat : Fat) (disk : Disk) (cluster : Nat) : Nat :=
  if cluster ≥ fat32Eoc then cluster
  else if cluster > fat.dataClusCnt + 1 then 0
  else fatEntry fat disk cluster

/-- The walk of `reloc_clus` from the first cluster: its `k`-th cluster, if it does not end before. -/
def clusAt (fat : Fat) (disk : Disk) (first : Nat) : Nat → Option Nat
  | 0 => some first
  | k + 1 => (clusAt fat disk first k).bind fun c =>
    if int32 (nextClus fat disk c) ≥ fat32Eoc then none else some (nextClus fat disk c)

section Walk
variable {disk : Disk} {first k c : Nat}

theorem int32_ge_iff {v : Nat} (hv : v < 2 ^ 32) : int32 v ≥ fat32Eoc ↔ fat32Eoc ≤ v ∧ v < 2 ^ 31 := by
  unfold int32 fat32Eoc
  rw [Nat.mod_eq_of_lt hv]
  split_ifs <;> omega

theorem nextClus_inRange (w : fat.Wf) (hc : fat.InRange c) : nextClus fat disk c = fatEntry fat disk c := by
  have := w.inRange_lt hc
  have := hc.2
  rw [nextClus, if_neg (by omega), if_neg (by omega)]

theorem run_readFatAt_any (w : fat.Wf) (l : Label) (c : Nat) (s : State) :
    (readFatAt fat l c).run s = .done (nextClus fat s.disk c) s := by
  have hu : u32 (fat.dataClusCnt + 1) = fat.dataClusCnt + 1 := u32_of_lt (by have := w.clusters_lt; omega)
  by_cases hc : c ≤ fat.dataClusCnt + 1
  · rw [run_readFatAt w s l hc, nextClus, if_neg (by have := w.clusters; omega), if_neg (by omega)]
  · rw [readFatAt, nextClus, hu]
    split_ifs with hend hbig
    · rfl
    · rfl
    · exact absurd hbig (by omega)

theorem clusAt_succ_of {d : Nat} (h : clusAt fat disk first k = some c) (hd : clusAt fat disk first (k + 1) = some d) :
    ¬ int32 (nextClus fat disk c) ≥ fat32Eoc ∧ nextClus fat disk c = d := by
  rw [clusAt, h, Option.bind_some] at hd
  split_ifs at hd with hend
  · exact ⟨hend, Option.some.inj hd⟩

theorem clusAt_before {j : Nat} (h : clusAt fat disk first k = some c) (hj : j ≤ k) :
    ∃ d, clusAt fat disk first j = some d := by
  induction k generalizing c with
  | zero =>
    obtain rfl := Nat.le_zero.mp hj
    exact ⟨c, h⟩
  | succ k ih =>
    by_cases hjk : j = k + 1
    · exact ⟨c, hjk ▸ h⟩
    · cases hk : clusAt fat disk first k with
      | none =>
        rw [clusAt, hk] at h
        cases h
      | some d => exact ih hk (by omega)

/-- A value with the top bit set is not left again. -/
theorem clusAt_stuck {j : Nat} (h : clusAt fat disk first k = some c) (hc : fat32Eoc ≤ c) (hj : k ≤ j)
    (hd : clusAt fat disk first j = some d) : d = c := by
  induction j, hj using Nat.le_induction generalizing d with
  | base => exact Option.some.inj (hd.symm.trans h)
  | succ j hkj ih =>
    obtain ⟨d', hd'⟩ := clusAt_before hd (Nat.le_succ j)
    obtain rfl := ih hd'
    rw [← (clusAt_succ_of hd' hd).2, nextClus, if_pos hc]

/-- The end of the walk and what is read there. -/
theorem end_mark (hi : clusAt fat disk first k = some c)
    (hend : clusAt fat disk first (k + 1) = none) : int32 (nextClus fat disk c) ≥ fat32Eoc := by
  by_contra hmark
  rw [clusAt, hi, Option.bind_some, if_neg hmark] at hend
  cases hend

/-- Where a walk ends that does not come to `k`. -/
theorem exists_end (h : clusAt fat disk first k = none) :
    ∃ i c, i < k ∧ clusAt fat disk first i = some c ∧ clusAt fat disk first (i + 1) = none := by
  induction k with
  | zero => cases h
  | succ k ih =>
    cases hk : clusAt fat disk first k with
    | none =>
      obtain ⟨i, c, hi, hc, hend⟩ := ih hk
      exact ⟨i, c, by omega, hc, hend⟩
    | some c => exact ⟨k, c, Nat.lt_succ_self k, hk, h⟩

end Walk

/-! ### Runs over the walk -/

/-- The cursor of `e` is where the walk from its first cluster leads. -/
def AtCursor (fat : Fat) (e : Ptr) (s : State) : Prop :=
  clusAt fat s.disk (s.dirents e).firstClus (s.dirents e).clusCnt = some (s.dirents e).curClus

theorem AtCursor.setCursor {s : State} {c k : Nat} (h : clusAt fat s.disk (s.dirents e).firstClus k = some c) :
    AtCursor fat e (s.setCursor e c k) := by
  unfold AtCursor
  rw [State.setCursor_same]
  exact h

theorem AtCursor.le_end {s : State} {i : Nat} (hcur : AtCursor fat e s) (hend : clusAt fat s.disk (s.dirents e).firstClus (i + 1) = none) :
    (s.dirents e).clusCnt ≤ i := by
  by_contra hlt
  obtain ⟨d, hd⟩ := clusAt_before hcur (show i + 1 ≤ (s.dirents e).clusCnt by omega)
  rw [hend] at hd
  cases hd

section Runs
variable (w : fat.Wf) {s : State} {i k c : Nat}
include w

/-- The forward loop follows the walk. -/
theorem run_relocForward_walk (hcur : AtCursor fat e s) (hi : clusAt fat s.disk (s.dirents e).firstClus i = some c)
    (hle : (s.dirents e).clusCnt ≤ i) (hik : i ≤ k) (hk32 : k < 2 ^ 32) (alloc : Bool) (n : Nat) :
    (relocForward fat e k alloc (n + (i - (s.dirents e).clusCnt))).run s =
      (relocForward fat e k alloc n).run (s.setCursor e c i) := by
  induction i, hle using Nat.le_induction generalizing c n with
  | base =>
    rw [Nat.sub_self, Nat.add_zero, s.setCursor_self e (Option.some.inj (hcur.symm.trans hi)) rfl]
  | succ i hle ih =>
    obtain ⟨d, hd⟩ := clusAt_before hi (Nat.le_succ i)
    obtain ⟨hend, rfl⟩ := clusAt_succ_of hd hi
    rw [show n + (i + 1 - (s.dirents e).clusCnt) = n + 1 + (i - (s.dirents e).clusCnt) by omega,
      ih hd (by omega) (n + 1), relocForward, Prog.run_bind_done (run_dirent ..), State.setCursor_same,
      if_pos (by show k > i; omega)]
    simp only
    rw [Prog.run_bind_done (run_readFatAt_any w _ _ _), State.setCursor_disk, if_neg hend,
      Prog.run_bind_done (run_assign ..), State.setDirent_advance _ e _ (by rw [State.setCursor_same]; show i + 1 < _; omega),
      State.setCursor_same, State.setCursor_setCursor]

omit w in
/-- At its cluster the forward loop is done. -/
theorem run_relocForward_here (alloc : Bool) (n : Nat) (h : k ≤ (s.dirents e).clusCnt) :
    (relocForward fat e k alloc n).run s = .done true s := by
  cases n with
  | zero => rfl
  | succ n =>
    rw [relocForward, Prog.run_bind_done (run_dirent ..), if_neg (by omega)]
    rfl

/-- To cluster `k` of the walk. -/
theorem run_relocForward_at (hcur : AtCursor fat e s) (hk : clusAt fat s.disk (s.dirents e).firstClus k = some c)
    (hle : (s.dirents e).clusCnt ≤ k) (hk32 : k < 2 ^ 32) (alloc : Bool) :
    (relocForward fat e k alloc k).run s = .done true (s.setCursor e c k) := by
  have hrun := run_relocForward_walk w hcur hk hle (le_refl k) hk32 alloc (s.dirents e).clusCnt
  rw [Nat.add_sub_cancel' hle] at hrun
  rw [hrun]
  exact run_relocForward_here alloc _ (by rw [State.setCursor_same])

/-- The walk ends before cluster `k`: without `alloc` the loop gives up. -/
theorem run_relocForward_end (hcur : AtCursor fat e s) (hi : clusAt fat s.disk (s.dirents e).firstClus i = some c)
    (hend : clusAt fat s.disk (s.dirents e).firstClus (i + 1) = none) (hik : i < k) (hk32 : k < 2 ^ 32) :
    (relocForward fat e k false k).run s = .done false (s.setCursor e (s.dirents e).firstClus 0) := by
  have hle := hcur.le_end hend
  have hmark := end_mark hi hend
  have hrun := run_relocForward_walk w hcur hi hle hik.le hk32 false (k - (i - (s.dirents e).clusCnt))
  rw [Nat.sub_add_cancel (by omega), show k - (i - (s.dirents e).clusCnt) = k - (i - (s.dirents e).clusCnt) - 1 + 1 by omega,
    relocForward, Prog.run_bind_done (run_dirent ..), State.setCursor_same, if_pos (by show k > i; omega)] at hrun
  simp only at hrun
  rw [Prog.run_bind_done (run_readFatAt_any w _ _ _), State.setCursor_disk, if_pos hmark, if_neg (by simp),
    Prog.run_bind_done (run_assign ..)] at hrun
  rw [hrun]
  show Outcome.done false _ = _
  rw [State.setDirent_congr (g := fun d => { d with curClus := (s.dirents e).firstClus, clusCnt := 0 }) _ _
    (by rw [State.setCursor_same])]
  exact congrArg _ (State.setCursor_setCursor s e c i (s.dirents e).firstClus 0)

/-- The loop that walks from the first cluster again stops at the values that are end marks to it. -/
theorem run_relocRewind_walk (n : Nat) (hcur : AtCursor fat e s)
    (hk : clusAt fat s.disk (s.dirents e).firstClus k = some c) (hk32 : k < 2 ^ 32) (hn : k - (s.dirents e).clusCnt ≤ n)
    (hle : (s.dirents e).clusCnt ≤ k) : (relocRewind fat e k n).run s = .done () (s.setCursor e c k) ∨
      ∃ i d, (s.dirents e).clusCnt < i ∧ i ≤ k ∧ clusAt fat s.disk (s.dirents e).firstClus i = some d ∧ fat32Eoc ≤ d ∧
        (relocRewind fat e k n).run s = .stopped (.panic "reloc_clus") := by
  induction n generalizing s with
  | zero =>
    have hj : (s.dirents e).clusCnt = k := by omega
    refine .inl ?_
    rw [← hj] at hk ⊢
    rw [s.setCursor_self e (Option.some.inj (hcur.symm.trans hk)) rfl]
    rfl
  | succ n ih =>
    rw [relocRewind, Prog.run_bind_done (run_dirent ..)]
    by_cases hj : (s.dirents e).clusCnt < k
    · obtain ⟨d, hd⟩ := clusAt_before hk (show (s.dirents e).clusCnt + 1 ≤ k from hj)
      obtain ⟨-, hnext⟩ := clusAt_succ_of hcur hd
      rw [if_pos hj, readFat, Prog.run_bind_done (run_readFatAt_any w _ _ _), hnext]
      by_cases hmark : d ≥ fat32Eoc
      · refine .inr ⟨_, d, Nat.lt_succ_self _, hj, hd, hmark, ?_⟩
        rw [if_pos hmark]
        rfl
      · rw [if_neg hmark, Prog.run_bind_done (run_assign ..), s.setDirent_advance e d (by omega)]
        have hrest := ih (s := s.setCursor e d ((s.dirents e).clusCnt + 1)) (.setCursor hd)
          (by rw [State.setCursor_same]; exact hk) (by rw [State.setCursor_same]; show k - ((s.dirents e).clusCnt + 1) ≤ n; omega)
          (by rw [State.setCursor_same]; exact hj)
        rw [State.setCursor_setCursor, State.setCursor_same] at hrest
        refine hrest.imp_right fun hfar => ?_
        obtain ⟨i, d', hi, hik, hd', hmark', hrun⟩ := hfar
        exact ⟨i, d', by have : (s.dirents e).clusCnt + 1 < i := hi; omega, hik, hd', hmark', hrun⟩
    · have hj : (s.dirents e).clusCnt = k := by omega
      refine .inl ?_
      rw [if_neg (by omega)]
      rw [← hj] at hk ⊢
      rw [s.setCursor_self e (Option.some.inj (hcur.symm.trans hk)) rfl]
      rfl

/-- To the offset's cluster of the walk, unless walking from the start again meets an end mark. -/
theorem run_relocClus_walk (off : Nat) (hcur : AtCursor fat e s)
    (hk : clusAt fat s.disk (s.dirents e).firstClus (off / fat.bytsPerClus) = some c) (hoff : off < 2 ^ 32) (alloc : Bool) :
    (relocClus fat e off alloc).run s =
        .done (off % fat.bytsPerClus : Nat) (s.setCursor e c (off / fat.bytsPerClus)) ∨
      off / fat.bytsPerClus < (s.dirents e).clusCnt ∧ ∃ i d, i ≤ off / fat.bytsPerClus ∧
        clusAt fat s.disk (s.dirents e).firstClus i = some d ∧ fat32Eoc ≤ d ∧
        (relocClus fat e off alloc).run s = .stopped (.panic "reloc_clus") := by
  have hk32 : off / fat.bytsPerClus < 2 ^ 32 := (Nat.div_le_self ..).trans_lt hoff
  unfold relocClus
  by_cases hle : (s.dirents e).clusCnt ≤ off / fat.bytsPerClus
  · refine .inl ?_
    rw [Prog.run_bind_done (run_relocForward_at w hcur hk hle hk32 alloc), if_pos rfl,
      Prog.run_bind_done (run_relocBack_ahead _ (by rw [State.setCursor_same]))]
    rfl
  · rw [Prog.run_bind_done (run_relocForward_here alloc _ (by omega)), if_pos rfl, relocBack, Prog.bind_assoc,
      Prog.run_bind_done (run_dirent ..), if_pos (by omega), Prog.bind_assoc, Prog.run_bind_done (run_assign ..)]
    have hset : s.setDirent e (fun d => { d with curClus := d.firstClus, clusCnt := 0 }) =
        s.setCursor e (s.dirents e).firstClus 0 := s.setDirent_congr e rfl
    rw [hset]
    have hstart : AtCursor fat e (s.setCursor e (s.dirents e).firstClus 0) := .setCursor rfl
    rcases run_relocRewind_walk w (k := off / fat.bytsPerClus) (c := c) _ hstart (by rw [State.setCursor_same]; exact hk)
      hk32 (Nat.sub_le ..) (by rw [State.setCursor_same]; exact Nat.zero_le _) with hrun | ⟨i, d, -, hi, hd, hmark, hrun⟩
    · refine .inl ?_
      rw [Prog.run_bind_done hrun, State.setCursor_setCursor]
      rfl
    · rw [State.setCursor_same] at hd
      refine .inr ⟨by omega, i, d, hi, hd, hmark, ?_⟩
      rw [Prog.run_bind, hrun]
      rfl

/-- Behind the end of the walk. -/
theorem run_relocClus_end {off : Nat} (hcur : AtCursor fat e s)
    (hi : clusAt fat s.disk (s.dirents e).firstClus i = some c)
    (hend : clusAt fat s.disk (s.dirents e).firstClus (i + 1) = none) (hik : i < off / fat.bytsPerClus)
    (hoff : off < 2 ^ 32) : ∃ s', (relocClus fat e off false).run s = .done (-1) s' := by
  have hk32 : off / fat.bytsPerClus < 2 ^ 32 := (Nat.div_le_self ..).trans_lt hoff
  exact ⟨_, by rw [relocClus, Prog.run_bind_done (run_relocForward_end w hcur hi hend hik hk32)]; rfl⟩

end Runs

/-! ### The free entries -/

/-- The free entries of the FAT, in the order in which `alloc_clus` finds them. -/
def frees (fat : Fat) (disk : Disk) : List Nat :=
  (List.range (fat.bpb.fatSz * 128)).filter fun e => fatEntry fat disk e == 0

theorem mem_frees {disk : Disk} {f : Nat} : f ∈ frees fat disk ↔ f < fat.bpb.fatSz * 128 ∧ fatEntry fat disk f = 0 := by
  simp [frees]

theorem frees_sorted (fat : Fat) (disk : Disk) : (frees fat disk).Pairwise (· < ·) :=
  List.pairwise_lt_range.filter _

/-- The first free entry is the one before all others. -/
theorem frees_head {disk : Disk} {f : Nat} {rest : List Nat} (h : frees fat disk = f :: rest) {k : Nat} (hk : k < f) :
    fatEntry fat disk k ≠ 0 := by
  intro hz
  have hf := (mem_frees.mp (h ▸ List.mem_cons_self : f ∈ frees fat disk)).1
  have hmem : k ∈ f :: rest := h ▸ mem_frees.mpr ⟨by omega, hz⟩
  have hsorted := h ▸ frees_sorted fat disk
  rcases List.mem_cons.mp hmem with rfl | hm
  · omega
  · have := (List.pairwise_cons.mp hsorted).1 k hm
    omega

/-- The first free entry is taken, the others stay free. -/
theorem frees_tail {disk disk' : Disk} {f : Nat} {rest : List Nat} (h : frees fat disk = f :: rest)
    (hz : ∀ k, k < fat.bpb.fatSz * 128 → (fatEntry fat disk' k = 0 ↔ k ≠ f ∧ fatEntry fat disk k = 0)) :
    frees fat disk' = rest := by
  have hfilter : frees fat disk' = (frees fat disk).filter (· != f) := by
    rw [frees, frees, List.filter_filter]
    refine List.filter_congr fun k hk => ?_
    have := hz k (List.mem_range.mp hk)
    rw [Bool.eq_iff_iff]
    simpa using this
  have hsorted := h ▸ frees_sorted fat disk
  rw [hfilter, h, List.filter_cons_of_neg (by simp), List.filter_eq_self]
  intro k hk
  have := (List.pairwise_cons.mp hsorted).1 k hk
  simp
  omega

/-- The cursor is at a data cluster, number `k`, behind which the file ends, and these entries are free. -/
structure AtEnd (fat : Fat) (e : Ptr) (s : State) (k : Nat) (free : List Nat) : Prop where
  inRange : fat.InRange (s.dirents e).curClus
  mark : int32 (nextClus fat s.disk (s.dirents e).curClus) ≥ fat32Eoc
  count : (s.dirents e).clusCnt = k
  frees : frees fat s.disk = free

section Take
variable (w : fat.Wf) (hsz : fat.bpb.fatSz * 128 ≤ 2 ^ 32) {s : State} {f k : Nat} {rest : List Nat}
include w hsz

/-- `alloc_clus` takes the first free entry; if it is a data cluster's, the rest of the FAT stays. -/
theorem run_allocClus_take (h : frees fat s.disk = f :: rest) :
    ∃ disk', (allocClus fat).run s = .done f { s with disk := disk' } ∧ (fat.InRange f →
      ∀ k, k < fat.bpb.fatSz * 128 → fatEntry fat disk' k = if k = f then fat32Eoc + 7 else fatEntry fat s.disk k) := by
  obtain ⟨hf, hz⟩ := mem_frees.mp (h ▸ List.mem_cons_self : f ∈ frees fat s.disk)
  obtain ⟨e, -, he, hmin, hrun⟩ := run_allocClus_first (s := s) w.searched ⟨f, hf, hz⟩
  obtain rfl : e = f := by
    have h1 : ¬ e < f := fun hlt => frees_head h hlt he
    have h2 : ¬ f < e := fun hlt => hmin f hlt hz
    omega
  rw [u32_of_lt (by omega)] at hrun
  by_cases hr : fat.InRange e
  · have hpos := w.secPerClus_pos
    have hlast := (w.firstSec_data hr (show fat.bpb.secPerClus - 1 < fat.bpb.secPerClus by omega)).2
    obtain ⟨disk', hzero, hdisk⟩ := run_zeroSectors fat.bpb.secPerClus (firstSecOfClus fat e)
      { s with disk := setFat fat e (fat32Eoc + 7) s.disk } (by omega)
    refine ⟨disk', by rw [hrun, zeroClus, hzero]; rfl, fun _ k hk => ?_⟩
    -- the FAT is before the data area
    have hfats := w.fats
    have hdata := (w.firstSec_data hr hpos).1
    have hsame : fatEntry fat disk' k = fatEntry fat (setFat fat e (fat32Eoc + 7) s.disk) k := by
      refine word32_congr fun i _ => ?_
      rw [hdisk, if_neg (by omega)]
    rw [hsame, setFat, fatEntry_fatWrite s.disk (by decide)]
  · obtain ⟨disk', hzero⟩ := run_zeroSectors_done fat.bpb.secPerClus (firstSecOfClus fat e)
      { s with disk := setFat fat e (fat32Eoc + 7) s.disk }
    exact ⟨disk', by rw [hrun, zeroClus, hzero]; rfl, fun hr' => absurd hr' hr⟩

/-- At an end mark the loop takes the first free entry. -/
theorem run_relocForward_take {j : Nat} (h : AtEnd fat e s j (f :: rest)) (hk : j < k) (hk32 : k < 2 ^ 32) (n : Nat) :
    ∃ s', (relocForward fat e k true (n + 1)).run s = (relocForward fat e k true n).run s' ∧
      (s'.dirents e).curClus = f ∧ (s'.dirents e).clusCnt = j + 1 ∧ (fat.InRange f → AtEnd fat e s' (j + 1) rest) := by
  obtain ⟨hr, hmark, hcnt, hfrees⟩ := h
  obtain ⟨disk₁, halloc, hdisk⟩ := run_allocClus_take w hsz hfrees
  have hf := mem_frees.mp (hfrees ▸ List.mem_cons_self : f ∈ frees fat s.disk)
  have hne : (s.dirents e).curClus ≠ f := by
    intro he
    rw [nextClus_inRange w hr, he, hf.2] at hmark
    exact absurd hmark (by decide)
  have hf32 : f < 2 ^ 32 := by omega
  refine ⟨State.setCursor { s with disk := setFat fat (s.dirents e).curClus f disk₁ } e f ((s.dirents e).clusCnt + 1),
    ?_, by rw [State.setCursor_same], by rw [State.setCursor_same, hcnt], fun hrf => ?_⟩
  · rw [relocForward, Prog.run_bind_done (run_dirent ..), if_pos (by omega),
      Prog.run_bind_done (run_readFatAt_any w _ _ _), if_pos hmark, if_pos rfl, Prog.run_bind_done halloc,
      Prog.run_bind_done (run_writeFat w _ f hr.2), Prog.run_bind_done (run_assign ..),
      State.setDirent_advance _ e f (by show (s.dirents e).clusCnt + 1 < _; omega)]
  · have hentry : ∀ k, k < fat.bpb.fatSz * 128 → fatEntry fat (setFat fat (s.dirents e).curClus f disk₁) k =
        if k = (s.dirents e).curClus then f else if k = f then fat32Eoc + 7 else fatEntry fat s.disk k := by
      intro k hk
      rw [setFat, fatEntry_fatWrite _ hf32, hdisk hrf k hk]
    constructor
    · rw [State.setCursor_same]
      exact hrf
    · rw [State.setCursor_same]
      show int32 (nextClus fat (setFat fat (s.dirents e).curClus f disk₁) f) ≥ fat32Eoc
      rw [nextClus_inRange w hrf, hentry f hf.1, if_neg (Ne.symm hne), if_pos rfl]
      decide
    · rw [State.setCursor_same, hcnt]
    · refine frees_tail hfrees fun k hk => ?_
      show fatEntry fat (setFat fat (s.dirents e).curClus f disk₁) k = 0 ↔ _
      rw [hentry k hk]
      have := hrf.1
      split_ifs with hcur hkf
      · subst hcur
        rw [nextClus_inRange w hr] at hmark
        refine iff_of_false (by omega) fun hz => ?_
        rw [hz.2] at hmark
        exact absurd hmark (by decide)
      · exact iff_of_false (by decide) fun hz => hz.1 hkf
      · simp [hkf]

omit hsz in
/-- Without a free entry it panics. -/
theorem run_relocForward_full {j : Nat} (h : AtEnd fat e s j []) (hk : j < k) (n : Nat) :
    (relocForward fat e k true (n + 1)).run s = .stopped (.panic "no clusters") := by
  have hfull : ∀ f, f < fat.bpb.fatSz * 128 → fatEntry fat s.disk f ≠ 0 := by
    intro f hf hz
    have := mem_frees.mpr ⟨hf, hz⟩
    rw [h.frees] at this
    simp at this
  rw [relocForward, Prog.run_bind_done (run_dirent ..), if_pos (by rw [h.count]; exact hk),
    Prog.run_bind_done (run_readFatAt_any w _ _ _), if_pos h.mark, if_pos rfl, Prog.run_bind, allocClus,
    run_allocScan_none w.searched hfull _ 0 (Nat.zero_add _)]
  rfl

/-- As long as the free entries are data clusters' the loop takes one after the other. -/
theorem run_relocForward_takes {j : Nat} {free : List Nat} (m n : Nat) (h : AtEnd fat e s j free) (hk : j + m ≤ k)
    (hk32 : k < 2 ^ 32) (hm : m ≤ free.length) (hin : ∀ f ∈ free.take m, fat.InRange f) :
    ∃ s', (relocForward fat e k true (n + m)).run s = (relocForward fat e k true n).run s' ∧
      AtEnd fat e s' (j + m) (free.drop m) := by
  induction m generalizing s j free with
  | zero => exact ⟨s, rfl, h⟩
  | succ m ih =>
    cases free with
    | nil => exact absurd hm (by simp)
    | cons f rest =>
      obtain ⟨s₁, hrun, -, -, hstep⟩ := run_relocForward_take w hsz h (by omega) hk32 (n + m)
      obtain ⟨s', hrun', h'⟩ := ih (hstep (hin f (by simp))) (by omega) (by simpa using hm)
        fun g hg => hin g (by simp [hg])
      refine ⟨s', ?_, ?_⟩
      · rw [← Nat.add_assoc, hrun, hrun']
      · rw [show j + (m + 1) = j + 1 + m by omega]
        exact h'

end Take
/-! ### Safety -/

/-- The sectors that a transfer inside the cluster touches. -/
structure OnData (fat : Fat) (c : Nat) : Prop where
  inRange : fat.InRange c
  sectors : ∀ i, i < fat.bpb.secPerClus → fat.firstDataSec ≤ firstSecOfClus fat c + i ∧
    firstSecOfClus fat c + i < fat.firstDataSec + fat.dataClusCnt * fat.bpb.secPerClus

theorem Fat.Wf.onData (w : fat.Wf) {c : Nat} (hc : fat.InRange c) : OnData fat c := by
  refine ⟨hc, fun i hi => ?_⟩
  obtain ⟨h2, hcnt⟩ := hc
  rw [w.firstSec ⟨h2, hcnt⟩]
  have hle : (c - 2 + 1) * fat.bpb.secPerClus ≤ fat.dataClusCnt * fat.bpb.secPerClus :=
    Nat.mul_le_mul_right _ (by omega)
  rw [Nat.add_mul] at hle
  omega

/-- A value at which all agree whether the file goes on: `reloc_clus` walking forward and walking
again, `eread`, and `etrunc`. -/
def SameEnd (v : Nat) : Prop :=
  (int32 v ≥ fat32Eoc ↔ v ≥ fat32Eoc) ∧ (v ≥ fat32Eoc ↔ ¬ v < fat32Eoc) ∧ (v ≥ fat32Eoc ↔ ¬ (2 ≤ v ∧ v < fat32Eoc))

/-- The last cluster of a walk to an offset. -/
def reach (fat : Fat) : Nat := (2 ^ 32 - 1) / fat.bytsPerClus

/-- No call leaves the cursor outside the data area, and the values met are read alike. -/
structure DamageSafe (fat : Fat) (e : Ptr) (s : State) : Prop where
  cursor : ∀ off alloc r s', off < 2 ^ 32 → (relocClus fat e off alloc).run s = .done r s' → r ≠ -1 →
    OnData fat (s'.dirents e).curClus
  ends : ∀ k c, k < reach fat → clusAt fat s.disk (s.dirents e).firstClus k = some c → SameEnd (nextClus fat s.disk c)

/-- The walk from the first cluster meets data clusters only, until it meets an end mark below 2^31, and
the free entries that are taken there are data clusters'. -/
structure Undamaged (fat : Fat) (disk : Disk) (first : Nat) : Prop where
  walk : ∀ k c, k ≤ reach fat → clusAt fat disk first k = some c → fat.InRange c
  free : ∀ k c, k < reach fat → clusAt fat disk first k = some c → clusAt fat disk first (k + 1) = none →
    ∀ f ∈ (frees fat disk).take (reach fat - k), fat.InRange f

section Safe
variable (w : fat.Wf) {s : State}
include w

omit w in
theorem reach_mul_lt {k : Nat} (hk : k ≤ reach fat) : k * fat.bytsPerClus < 2 ^ 32 := by
  have := Nat.div_mul_le_self (2 ^ 32 - 1) fat.bytsPerClus
  have := Nat.mul_le_mul_right fat.bytsPerClus hk
  unfold reach at this
  omega

omit w in
theorem div_le_reach {off : Nat} (hoff : off < 2 ^ 32) : off / fat.bytsPerClus ≤ reach fat :=
  Nat.div_le_div_right (by omega)

/-- The walk is on data clusters if the calls leave the cursor there. -/
theorem DamageSafe.walk (h : DamageSafe fat e s) (hcur : AtCursor fat e s) (hcnt : (s.dirents e).clusCnt ≤ reach fat)
    {k c : Nat} (hk : k ≤ reach fat) (hc : clusAt fat s.disk (s.dirents e).firstClus k = some c) : fat.InRange c := by
  have hcall : ∀ j d, j ≤ reach fat → clusAt fat s.disk (s.dirents e).firstClus j = some d →
      (s.dirents e).clusCnt ≤ j → fat.InRange d := by
    intro j d hj hd hle
    have hdiv : j * fat.bytsPerClus / fat.bytsPerClus = j := Nat.mul_div_cancel _ w.bytsPerClus_pos
    rcases run_relocClus_walk w (j * fat.bytsPerClus) hcur (by rw [hdiv]; exact hd) (reach_mul_lt hj) false with
      hrun | ⟨hlt, -⟩
    · have hon := (h.cursor _ _ _ _ (reach_mul_lt hj) hrun (by omega)).inRange
      rwa [State.setCursor_same] at hon
    · rw [hdiv] at hlt
      omega
  by_cases hle : (s.dirents e).clusCnt ≤ k
  · exact hcall k c hk hc hle
  · have hdiv : k * fat.bytsPerClus / fat.bytsPerClus = k := Nat.mul_div_cancel _ w.bytsPerClus_pos
    rcases run_relocClus_walk w (k * fat.bytsPerClus) hcur (by rw [hdiv]; exact hc) (reach_mul_lt hk) false with
      hrun | ⟨-, i, d, hi, hd, hmark, -⟩
    · have hon := (h.cursor _ _ _ _ (reach_mul_lt hk) hrun (by omega)).inRange
      rwa [State.setCursor_same] at hon
    · -- the walk is stuck at a mark, and so is the cursor
      rw [hdiv] at hi
      have hstuck := clusAt_stuck hd hmark (by omega) hcur
      have hr := hcall _ _ hcnt hcur (le_refl _)
      rw [hstuck] at hr
      have := w.inRange_lt hr
      omega

/-- With `alloc` the loop goes to the end of the walk first. -/
theorem run_relocForward_toEnd {i k c : Nat} (hcur : AtCursor fat e s)
    (hi : clusAt fat s.disk (s.dirents e).firstClus i = some c)
    (hend : clusAt fat s.disk (s.dirents e).firstClus (i + 1) = none) (hik : i < k) (hk32 : k < 2 ^ 32) :
    (relocForward fat e k true k).run s =
      (relocForward fat e k true ((s.dirents e).clusCnt + (k - i))).run (s.setCursor e c i) := by
  have hle := hcur.le_end hend
  have hrun := run_relocForward_walk w hcur hi hle hik.le hk32 true ((s.dirents e).clusCnt + (k - i))
  rwa [show (s.dirents e).clusCnt + (k - i) + (i - (s.dirents e).clusCnt) = k by omega] at hrun

/-- The free entries taken are data clusters' if the calls leave the cursor there. -/
theorem DamageSafe.free (h : DamageSafe fat e s) (hsz : fat.bpb.fatSz * 128 ≤ 2 ^ 32) (hcur : AtCursor fat e s)
    (hcnt : (s.dirents e).clusCnt ≤ reach fat) {i c : Nat} (hi : i < reach fat)
    (hc : clusAt fat s.disk (s.dirents e).firstClus i = some c)
    (hend : clusAt fat s.disk (s.dirents e).firstClus (i + 1) = none) (t : Nat) {f : Nat}
    (ht : (frees fat s.disk)[t]? = some f) (hreach : i + t + 1 ≤ reach fat) : fat.InRange f := by
  induction t using Nat.strong_induction_on generalizing f with
  | _ t ih =>
    have hr := h.walk w hcur hcnt hi.le hc
    have hdiv : (i + t + 1) * fat.bytsPerClus / fat.bytsPerClus = i + t + 1 := Nat.mul_div_cancel _ w.bytsPerClus_pos
    have hoff := reach_mul_lt hreach
    have hk32 : i + t + 1 < 2 ^ 32 := by
      have := Nat.le_mul_of_pos_right (i + t + 1) w.bytsPerClus_pos
      omega
    have hlen := (List.getElem?_eq_some_iff.mp ht).1
    have hin : ∀ g ∈ (frees fat s.disk).take t, fat.InRange g := by
      intro g hg
      obtain ⟨j, hj⟩ := List.getElem?_of_mem hg
      have hjt := (List.getElem?_eq_some_iff.mp hj).1
      rw [List.length_take] at hjt
      rw [List.getElem?_take_of_lt (by omega)] at hj
      exact ih j (by omega) hj (by omega)
    have hat : AtEnd fat e (s.setCursor e c i) i (frees fat s.disk) :=
      ⟨by rw [State.setCursor_same]; exact hr, by rw [State.setCursor_same]; exact end_mark hc hend,
        by rw [State.setCursor_same], rfl⟩
    obtain ⟨s₁, htakes, hat₁⟩ := run_relocForward_takes w hsz (k := i + t + 1) t ((s.dirents e).clusCnt + 1) hat
      (by omega) hk32 hlen.le hin
    rw [List.drop_eq_getElem_cons hlen, (List.getElem?_eq_some_iff.mp ht).2] at hat₁
    obtain ⟨s₂, htake, hcurs, hcnts, -⟩ :=
      run_relocForward_take w hsz hat₁ (Nat.lt_succ_self _) hk32 (s.dirents e).clusCnt
    have hrun : (relocForward fat e (i + t + 1) true (i + t + 1)).run s = .done true s₂ := by
      rw [run_relocForward_toEnd w hcur hc hend (by omega) hk32, show i + t + 1 - i = 1 + t by omega, ← Nat.add_assoc,
        htakes, htake]
      exact run_relocForward_here true _ hcnts.ge
    have hcall : (relocClus fat e ((i + t + 1) * fat.bytsPerClus) true).run s =
        .done ((i + t + 1) * fat.bytsPerClus % fat.bytsPerClus : Nat) s₂ := by
      rw [relocClus, hdiv, Prog.run_bind_done hrun, if_pos rfl, Prog.run_bind_done (run_relocBack_ahead _ hcnts.le)]
      rfl
    have hon := (h.cursor _ _ _ _ hoff hcall (by omega)).inRange
    rwa [hcurs] at hon

/-- On a sound FAT the values met are either the next cluster or an end mark to all. -/
theorem Undamaged.sameEnd (h : Undamaged fat s.disk (s.dirents e).firstClus) {k c : Nat} (hk : k < reach fat)
    (hc : clusAt fat s.disk (s.dirents e).firstClus k = some c) : SameEnd (nextClus fat s.disk c) := by
  have hlt : nextClus fat s.disk c < 2 ^ 32 := by
    rw [nextClus_inRange w (h.walk k c hk.le hc)]
    exact fatEntry_lt ..
  unfold SameEnd
  rw [int32_ge_iff hlt]
  cases hnext : clusAt fat s.disk (s.dirents e).firstClus (k + 1) with
  | some d =>
    obtain ⟨-, rfl⟩ := clusAt_succ_of hc hnext
    have hr := h.walk (k + 1) _ hk hnext
    have := w.inRange_lt hr
    have := hr.1
    omega
  | none =>
    have hmark := (int32_ge_iff hlt).mp (end_mark hc hnext)
    omega

/-- With `alloc`, behind the end of the walk. -/
theorem run_relocClus_taken (h : Undamaged fat s.disk (s.dirents e).firstClus) (hsz : fat.bpb.fatSz * 128 ≤ 2 ^ 32)
    (hcur : AtCursor fat e s) {off i c : Nat} (hoff : off < 2 ^ 32)
    (hc : clusAt fat s.disk (s.dirents e).firstClus i = some c)
    (hend : clusAt fat s.disk (s.dirents e).firstClus (i + 1) = none) (hik : i < off / fat.bytsPerClus) :
    (∃ r s', (relocClus fat e off true).run s = .done r s' ∧ fat.InRange (s'.dirents e).curClus) ∨
      ∃ why, (relocClus fat e off true).run s = .stopped why := by
  have hreach : off / fat.bytsPerClus ≤ reach fat := div_le_reach hoff
  have hk32 : off / fat.bytsPerClus < 2 ^ 32 := (Nat.div_le_self ..).trans_lt hoff
  have hat : AtEnd fat e (s.setCursor e c i) i (frees fat s.disk) :=
    ⟨by rw [State.setCursor_same]; exact h.walk i c (by omega) hc, by rw [State.setCursor_same]; exact end_mark hc hend,
      by rw [State.setCursor_same], rfl⟩
  have hfree := h.free i c (by omega) hc hend
  have hin : ∀ m, m ≤ off / fat.bytsPerClus - i → ∀ f ∈ (frees fat s.disk).take m, fat.InRange f :=
    fun m hm f hf => hfree f ((List.take_subset_take_left _ (by omega)) hf)
  have hto := run_relocForward_toEnd w hcur hc hend hik hk32
  unfold relocClus
  by_cases hm : off / fat.bytsPerClus - i ≤ (frees fat s.disk).length
  · obtain ⟨s', htakes, hat'⟩ := run_relocForward_takes w hsz (off / fat.bytsPerClus - i) (s.dirents e).clusCnt hat
      (by omega) hk32 hm (hin _ (le_refl _))
    refine .inl ⟨(off % fat.bytsPerClus : Nat), s', ?_, hat'.inRange⟩
    have hcnt := hat'.count
    have hdone := hto.trans htakes
    rw [run_relocForward_here (s := s') true _ (by omega)] at hdone
    rw [Prog.run_bind_done hdone, if_pos rfl, Prog.run_bind_done (run_relocBack_ahead _ (by omega))]
    rfl
  · obtain ⟨s', htakes, hat'⟩ := run_relocForward_takes w hsz (k := off / fat.bytsPerClus) (frees fat s.disk).length
      ((s.dirents e).clusCnt + (off / fat.bytsPerClus - i - (frees fat s.disk).length - 1) + 1) hat (by omega) hk32
      (le_refl _) (hin _ (by omega))
    rw [List.drop_length] at hat'
    refine .inr ⟨.panic "no clusters", ?_⟩
    rw [show (s.dirents e).clusCnt + (off / fat.bytsPerClus - i - (frees fat s.disk).length - 1) + 1 +
      (frees fat s.disk).length = (s.dirents e).clusCnt + (off / fat.bytsPerClus - i) by omega, ← hto,
      run_relocForward_full w hat' (by omega)] at htakes
    rw [Prog.run_bind, htakes]
    rfl

/-- **The cursor stays in the data area, and the ends of the file are read alike, just if the walk
from the first cluster is undamaged.** -/
theorem damageSafe_iff (hsz : fat.bpb.fatSz * 128 ≤ 2 ^ 32) (hcur : AtCursor fat e s)
    (hcnt : (s.dirents e).clusCnt ≤ reach fat) :
    DamageSafe fat e s ↔ Undamaged fat s.disk (s.dirents e).firstClus := by
  constructor
  · intro h
    refine ⟨fun k c hk hc => h.walk w hcur hcnt hk hc, fun i c hi hc hend f hf => ?_⟩
    obtain ⟨t, ht⟩ := List.getElem?_of_mem hf
    have hlen := (List.getElem?_eq_some_iff.mp ht).1
    rw [List.length_take] at hlen
    rw [List.getElem?_take_of_lt (by omega)] at ht
    exact h.free w hsz hcur hcnt hi hc hend t ht (by omega)
  · intro h
    refine ⟨fun off alloc r s' hoff hrun hr => ?_, fun k c hk hc => h.sameEnd w hk hc⟩
    refine w.onData ?_
    cases hk : clusAt fat s.disk (s.dirents e).firstClus (off / fat.bytsPerClus) with
    | some c =>
      rcases run_relocClus_walk w off hcur hk hoff alloc with hdone | ⟨-, -, -, -, -, -, hpanic⟩
      · rw [hdone] at hrun
        cases hrun
        rw [State.setCursor_same]
        exact h.walk _ c (div_le_reach hoff) hk
      · rw [hpanic] at hrun
        cases hrun
    | none =>
      obtain ⟨i, c, hik, hc, hend⟩ := exists_end hk
      cases alloc with
      | false =>
        obtain ⟨s₁, hfail⟩ := run_relocClus_end w hcur hc hend hik hoff
        rw [hfail] at hrun
        cases hrun
        exact absurd rfl hr
      | true =>
        rcases run_relocClus_taken w h hsz hcur hoff hc hend hik with ⟨r₁, s₁, hdone, hin⟩ | ⟨why, hstop⟩
        · rw [hdone] at hrun
          cases hrun
          exact hin
        · rw [hstop] at hrun
          cases hrun

end Safe
/-- A free entry on a chain leads to cluster 0, a mark with the top bit set to a cluster of that number. -/
theorem not_damageSafe :
    ¬ DamageSafe oneClus .root (oneClusDir 0 []) ∧ ¬ DamageSafe oneClus .root (oneClusDir 0xffffffff []) :=
  ⟨fun h => absurd (h.cursor 512 false 0 _ (by decide) rfl (by decide)).inRange (by decide),
    fun h => absurd (h.cursor 512 false 0 _ (by decide) rfl (by decide)).inRange (by decide)⟩

/-- Every entry of the FAT is an end mark. -/
def markedState : State where
  disk sec o := if sec = 1 then if o % 4 = 3 then 0x0f else 0xff else 0
  dirents _ := { Dirent.zero with firstClus := 2, curClus := 2, valid := 1, ref := 1 }
  lru := []

theorem damageSafe_marked : DamageSafe oneClus .root markedState := by
  have hend : clusAt oneClus markedState.disk 2 1 = none := by decide
  have hwalk : ∀ k c, clusAt oneClus markedState.disk 2 k = some c → c = 2 := by
    intro k c hc
    cases k with
    | zero => exact (Option.some.inj hc).symm
    | succ k =>
      obtain ⟨d, hd⟩ := clusAt_before hc (show 1 ≤ k + 1 by omega)
      rw [hend] at hd
      cases hd
  have hcur : AtCursor oneClus .root markedState := rfl
  have hfrees : frees oneClus markedState.disk = [] := by decide +kernel
  refine (damageSafe_iff (by constructor <;> decide) (by decide) hcur (Nat.zero_le _)).mpr
    ⟨fun k c _ hc => ?_, fun k c _ _ _ f hf => ?_⟩
  · rw [hwalk k c hc]
    decide
  · rw [hfrees] at hf
    simp at hf

end Farron
