import Farron.Kernel.Common
import Mathlib.Logic.Function.Basic

/-! The volume: constants, sectors, the FAT's little-endian words, the geometry.

A sector is its bytes by offset, a disk its sectors by number. `Fat` is what
`fat32_init` leaves in the source's `fat`, computed from sector 0 by `Fat.mount`. -/
namespace Farron

abbrev Byte := UInt8

theorem div_mod_add {b o i : Nat} (h : o % b + i < b) : (o + i) / b = o / b ∧ (o + i) % b = o % b + i := by
  have hq : o + i = b * (o / b) + (o % b + i) := by
    have := Nat.div_add_mod o b
    omega
  rw [hq]
  exact ⟨by rw [Nat.mul_add_div (by omega), Nat.div_eq_of_lt h, Nat.add_zero],
    by rw [Nat.mul_add_mod, Nat.mod_eq_of_lt h]⟩

def attrReadOnly : Byte := 0x01
def attrDirectory : Byte := 0x10
def attrArchive : Byte := 0x20
def attrLongName : Byte := 0x0F

def lastLongEntry : Byte := 0x40
def fat32Eoc : Nat := 0x0ffffff8
def emptyEntry : Byte := 0xe5
def endOfEntry : Byte := 0x00
def charLongName : Nat := 13
def charShortName : Nat := 11

def fat32MaxFilename : Nat := 255
def fat32MaxPath : Nat := 260
def entryCacheNum : Nat := 50

/-! ### Sectors and words -/

abbrev Sector := Nat → Byte
abbrev Disk := Nat → Sector

/-- Bytes `pos .. pos + m - 1` replaced by the first `m` of `src`. -/
def overwrite (pos m : Nat) (src : Nat → Byte) (b : Sector) : Sector :=
  fun o => if pos ≤ o ∧ o < pos + m then src (o - pos) else b o

theorem overwrite_in {pos m o : Nat} (src : Nat → Byte) (b : Sector) (h : pos ≤ o) (h' : o < pos + m) :
    overwrite pos m src b o = src (o - pos) := if_pos ⟨h, h'⟩

theorem overwrite_out {pos m o : Nat} (src : Nat → Byte) (b : Sector) (h : o < pos ∨ pos + m ≤ o) :
    overwrite pos m src b o = b o := if_neg (by omega)

/-- Byte `i` of a word. -/
def wordByte (v i : Nat) : Byte := UInt8.ofNat (v / 256 ^ i)

/-- The word at byte offset `o`. -/
def word32 (b : Sector) (o : Nat) : Nat :=
  (b o).toNat + 256 * (b (o + 1)).toNat + 65536 * (b (o + 2)).toNat + 16777216 * (b (o + 3)).toNat

def putWord32 (o v : Nat) (b : Sector) : Sector := overwrite o 4 (wordByte v) b

theorem word32_lt (b : Sector) (o : Nat) : word32 b o < 2 ^ 32 := by
  have h0 := (b o).toNat_lt
  have h1 := (b (o + 1)).toNat_lt
  have h2 := (b (o + 2)).toNat_lt
  have h3 := (b (o + 3)).toNat_lt
  unfold word32
  omega

theorem word32_congr {b b' : Sector} {o : Nat} (h : ∀ i, i < 4 → b (o + i) = b' (o + i)) :
    word32 b o = word32 b' o := by
  have h0 : b o = b' o := h 0 (by omega)
  simp only [word32, h0, h 1 (by omega), h 2 (by omega), h 3 (by omega)]

theorem word32_putWord32 {v : Nat} (o : Nat) (b : Sector) (h : v < 2 ^ 32) :
    word32 (putWord32 o v b) o = v := by
  have hb : ∀ i, i < 4 → putWord32 o v b (o + i) = wordByte v i := by
    intro i hi
    rw [putWord32, overwrite_in _ _ (by omega) (by omega)]
    congr 1
    omega
  have h0 : putWord32 o v b o = wordByte v 0 := hb 0 (by omega)
  simp only [word32, h0, hb 1 (by omega), hb 2 (by omega), hb 3 (by omega), wordByte,
    UInt8.toNat_ofNat']
  omega

theorem word32_putWord32_ne {o o' : Nat} (v : Nat) (b : Sector) (h : o' + 4 ≤ o ∨ o + 4 ≤ o') :
    word32 (putWord32 o v b) o' = word32 b o' := by
  have hb : ∀ i, i < 4 → putWord32 o v b (o' + i) = b (o' + i) := fun i hi =>
    overwrite_out _ _ (by omega)
  exact word32_congr hb

/-! ### Geometry -/

/-- The fields of the boot parameter block that the kernel uses. -/
structure Bpb where
  bytsPerSec : Nat
  secPerClus : Nat
  rsvdSecCnt : Nat
  fatCnt : Nat
  totSec : Nat
  fatSz : Nat
  rootClus : Nat

structure Fat where
  bpb : Bpb
  firstDataSec : Nat
  dataSecCnt : Nat
  dataClusCnt : Nat
  bytsPerClus : Nat

/-- The geometry `fat32_init` computes from sector 0, or the message it panics with. -/
def Fat.mount (b : Sector) : Except String Fat :=
  if (List.range 5).map (fun i => b (82 + i)) ≠ [0x46, 0x41, 0x54, 0x33, 0x32] then
    .error "not FAT32 volume"
  else
    let bpb : Bpb :=
      { bytsPerSec := (b 11).toNat + 256 * (b 12).toNat
        secPerClus := (b 13).toNat
        rsvdSecCnt := (b 14).toNat + 256 * (b 15).toNat
        fatCnt := (b 16).toNat
        totSec := word32 b 32
        fatSz := word32 b 36
        rootClus := word32 b 44 }
    let firstDataSec := u32 (bpb.rsvdSecCnt + bpb.fatCnt * bpb.fatSz)
    let dataSecCnt := u32 (bpb.totSec + 2 ^ 32 - firstDataSec)
    if bsize ≠ bpb.bytsPerSec then .error "byts_per_sec != BSIZE"
    else .ok
      { bpb
        firstDataSec
        dataSecCnt
        dataClusCnt := dataSecCnt / bpb.secPerClus
        bytsPerClus := bpb.secPerClus * bpb.bytsPerSec }

/-- A FAT32 volume's geometry: the FAT has an entry for every data cluster, the
data area ends within 2³² sectors, and no cluster number is an end-of-chain mark. -/
structure Fat.Wf (fat : Fat) : Prop where
  bytsPerSec : fat.bpb.bytsPerSec = bsize
  bytsPerClus : fat.bytsPerClus = fat.bpb.secPerClus * bsize
  secPerClus_pos : 0 < fat.bpb.secPerClus
  secPerClus_lt : fat.bpb.secPerClus < 256
  fats : fat.bpb.rsvdSecCnt + fat.bpb.fatSz ≤ fat.firstDataSec
  entries : fat.dataClusCnt + 2 ≤ fat.bpb.fatSz * 128
  data : fat.firstDataSec + fat.dataClusCnt * fat.bpb.secPerClus ≤ 2 ^ 32
  clusters : fat.dataClusCnt + 1 < fat32Eoc

/-- A data cluster's number. -/
def Fat.InRange (fat : Fat) (cluster : Nat) : Prop := 2 ≤ cluster ∧ cluster ≤ fat.dataClusCnt + 1

instance (fat : Fat) (cluster : Nat) : Decidable (fat.InRange cluster) :=
  inferInstanceAs (Decidable (_ ∧ _))

def firstSecOfClus (fat : Fat) (cluster : Nat) : Nat :=
  u32 (u32 (cluster + 2 ^ 32 - 2) * fat.bpb.secPerClus + fat.firstDataSec)

/-- The sector of FAT number `fatNum`, counted from 1, that holds a cluster's entry. -/
def fatSecOfClus (fat : Fat) (cluster fatNum : Nat) : Nat :=
  u32 (fat.bpb.rsvdSecCnt + u32 (4 * cluster) / fat.bpb.bytsPerSec + fat.bpb.fatSz * (fatNum - 1))

def fatOffsetOfClus (fat : Fat) (cluster : Nat) : Nat := u32 (4 * cluster) % fat.bpb.bytsPerSec

namespace Fat.Wf
variable {fat : Fat} (w : fat.Wf)
include w

theorem bytsPerClus_eq : fat.bytsPerClus = fat.bpb.secPerClus * 512 := w.bytsPerClus

theorem bytsPerClus_pos : 0 < fat.bytsPerClus := by
  have := w.secPerClus_pos
  rw [w.bytsPerClus, bsize]
  omega

theorem clusters_lt : fat.dataClusCnt + 1 < 2 ^ 28 := by
  have := w.clusters
  unfold fat32Eoc at this
  omega

theorem inRange_lt {c : Nat} (h : fat.InRange c) : c < fat32Eoc := by
  have := w.clusters
  have := h.2
  omega

theorem firstSec {c : Nat} (h : fat.InRange c) :
    firstSecOfClus fat c = (c - 2) * fat.bpb.secPerClus + fat.firstDataSec := by
  obtain ⟨h2, hc⟩ := h
  have hlt : c < 2 ^ 32 := by have := w.clusters_lt; omega
  have hsub : u32 (c + 2 ^ 32 - 2) = c - 2 := by
    unfold u32
    omega
  have hle : (c - 2 + 1) * fat.bpb.secPerClus ≤ fat.dataClusCnt * fat.bpb.secPerClus :=
    Nat.mul_le_mul_right _ (by omega)
  have := w.data
  have := w.secPerClus_pos
  rw [Nat.add_mul] at hle
  rw [firstSecOfClus, hsub, u32_of_lt (by omega)]

/-- The sectors of a data cluster lie in the data area. -/
theorem firstSec_data {c i : Nat} (h : fat.InRange c) (hi : i < fat.bpb.secPerClus) :
    fat.firstDataSec ≤ firstSecOfClus fat c + i ∧ firstSecOfClus fat c + i < 2 ^ 32 := by
  obtain ⟨h2, hc⟩ := h
  rw [w.firstSec ⟨h2, hc⟩]
  have hle : (c - 2 + 1) * fat.bpb.secPerClus ≤ fat.dataClusCnt * fat.bpb.secPerClus :=
    Nat.mul_le_mul_right _ (by omega)
  have := w.data
  rw [Nat.add_mul] at hle
  omega

/-- Different data clusters have different sectors. -/
theorem firstSec_inj {c c' i j : Nat} (h : fat.InRange c) (h' : fat.InRange c')
    (hi : i < fat.bpb.secPerClus) (hj : j < fat.bpb.secPerClus)
    (he : firstSecOfClus fat c + i = firstSecOfClus fat c' + j) : c = c' ∧ i = j := by
  rw [w.firstSec h, w.firstSec h'] at he
  have he' : (c - 2) * fat.bpb.secPerClus + i = (c' - 2) * fat.bpb.secPerClus + j := by omega
  have hd := congrArg (· / fat.bpb.secPerClus) he'
  have hm := congrArg (· % fat.bpb.secPerClus) he'
  simp only [Nat.add_comm _ i, Nat.add_comm _ j, Nat.add_mul_div_right _ _ w.secPerClus_pos,
    Nat.add_mul_mod_self_right, Nat.div_eq_of_lt hi, Nat.div_eq_of_lt hj, Nat.mod_eq_of_lt hi,
    Nat.mod_eq_of_lt hj] at hd hm
  exact ⟨by have := h.1; have := h'.1; omega, hm⟩

theorem fatSec {c : Nat} (h : c ≤ fat.dataClusCnt + 1) :
    fatSecOfClus fat c 1 = fat.bpb.rsvdSecCnt + c / 128 ∧ c / 128 < fat.bpb.fatSz := by
  have := w.entries
  have := w.fats
  have := w.data
  have hc : u32 (4 * c) = 4 * c := u32_of_lt (by have := w.clusters_lt; omega)
  have hq : 4 * c / bsize = c / 128 := by unfold bsize; omega
  have hlt : c / 128 < fat.bpb.fatSz := by omega
  refine ⟨?_, hlt⟩
  rw [fatSecOfClus, hc, w.bytsPerSec, hq, Nat.sub_self, Nat.mul_zero, Nat.add_zero, u32_of_lt (by omega)]

theorem fatOffset {c : Nat} (h : c ≤ fat.dataClusCnt + 1) : fatOffsetOfClus fat c = 4 * (c % 128) := by
  have hc : u32 (4 * c) = 4 * c := u32_of_lt (by have := w.clusters_lt; omega)
  rw [fatOffsetOfClus, hc, w.bytsPerSec]
  unfold bsize
  omega

end Fat.Wf

/-! ### The FAT and the clusters of a disk -/

/-- Entry `c` of the first FAT. -/
def fatEntry (fat : Fat) (disk : Disk) (c : Nat) : Nat :=
  word32 (disk (fat.bpb.rsvdSecCnt + c / 128)) (4 * (c % 128))

/-- Byte `o` of data cluster `c`. -/
def clusByte (fat : Fat) (disk : Disk) (c o : Nat) : Byte :=
  disk (firstSecOfClus fat c + o / bsize) (o % bsize)

theorem clusByte_eq (fat : Fat) (disk : Disk) (c o : Nat) :
    clusByte fat disk c o = disk (firstSecOfClus fat c + o / 512) (o % 512) := rfl

end Farron
