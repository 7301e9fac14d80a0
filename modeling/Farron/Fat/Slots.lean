import Farron.Fat.Contents
import Farron.Fat.Directory

/-! The slots of a directory, and one scan of them.

`enext` is a loop over the slots it reads one after the other. `scan` is that loop on
a list of slots, apart from the reading: `slotsRead` says what a run reads, on any
disk, and `run_enextLoop` what a directory with a well-formed chain has to offer. What
a scan writes, and where, then depends on the slots alone (`enextSafe_iff`). -/
namespace Farron
open Resumption

/-! ### The scan -/

def live (de : Bytes) : Bool := de 0 != endOfEntry && de 0 != emptyEntry

/-- The number of a long-name slot. -/
def number (de : Bytes) : Nat := (de 0 &&& ~~~lastLongEntry).toNat

def isLast (de : Bytes) : Bool := decide (de 0 &&& lastLongEntry ≠ 0)

/-- What the loop of `enext` does at a slot: it ends, or goes on with its variables. -/
inductive Round
  | result (r : Next)
  | stop (why : Stop)
  | next (cnt : Nat) (open' : Bool) (total : Nat) (buf : Bytes)

/-- A round of the loop of `enext`, the slot `de` having been read. -/
def scanSlot (room : Nat) (de : Bytes) (cnt : Nat) (open' : Bool) (total : Nat) (buf : Bytes) : Round :=
  if de 0 = endOfEntry then .result ⟨-1, total, cstr nameArray buf, none⟩
  else if de 0 = emptyEntry then .next (cnt + 1) open' total buf
  else if cnt ≠ 0 then
    if open' then .result ⟨0, cnt, cstr nameArray buf, none⟩ else .stop (.fault "enext: count")
  else if de 11 = attrLongName then
    if isLast de ∧ ¬ open' then .stop (.fault "enext: count")
    else if number de = 0 ∨ room < number de * charLongName then .stop (.fault "enext: filename")
    else
      .next cnt (open' && !isLast de) (if isLast de then number de + 1 else total)
        (readEntryName ((number de - 1) * charLongName) de buf)
  else
    let buf := if open' then readEntryName 0 de buf else buf
    let name := cstr nameArray buf
    if name.length = nameArray then .stop (.fault "enext: filename")
    else .result ⟨1, if open' then 1 else total, name, some (readEntryInfo de)⟩

/-- The loop of `enext` on the slots it finds, `none` being the end of the chain; no
result if it needs more of them. -/
def scan (room : Nat) : List (Option Bytes) → Nat → Bool → Nat → Bytes → Option (Except Stop Next)
  | [], _, _, _, _ => none
  | none :: _, _, _, total, buf => some (.ok ⟨-1, total, cstr nameArray buf, none⟩)
  | some de :: slots, cnt, open', total, buf =>
    match scanSlot room de cnt open' total buf with
    | .result r => some (.ok r)
    | .stop e => some (.error e)
    | .next cnt open' total buf => scan room slots cnt open' total buf

variable {fat : Fat} {room : Nat} {dp : Ptr}

theorem run_enextLoop_end {off : Nat} {s s' : State} (h : (enextRead fat dp off).run s = .done none s')
    (n cnt : Nat) (open' : Bool) (total : Nat) (buf : Bytes) :
    (enextLoop fat room dp (n + 1) off cnt open' total buf).run s =
      .done ⟨-1, total, cstr nameArray buf, none⟩ s' := by
  rw [enextLoop, Prog.run_bind_done h]
  rfl

/-- A round that has read a slot. -/
theorem run_enextLoop_slot {off : Nat} {s s' : State} {de : Bytes}
    (h : (enextRead fat dp off).run s = .done (some de) s') (n cnt : Nat) (open' : Bool) (total : Nat)
    (buf : Bytes) :
    (enextLoop fat room dp (n + 1) off cnt open' total buf).run s =
      match scanSlot room de cnt open' total buf with
      | .result r => .done r s'
      | .stop e => .stopped e
      | .next cnt open' total buf =>
        (enextLoop fat room dp n (u32 (off + recordSz)) cnt open' total buf).run s' := by
  rw [enextLoop, Prog.run_bind_done h]
  simp only [scanSlot, number, isLast, decide_eq_true_eq]
  split_ifs <;> rfl

/-! ### What a run reads -/

/-- The slots that the loop of `enext` finds from `off` on, on whatever disk: at most `n`
of them, up to the end of the chain or a panic. -/
def slotsRead (fat : Fat) (dp : Ptr) : Nat → Nat → State → List (Option Bytes)
  | 0, _, _ => []
  | n + 1, off, s =>
    match (enextRead fat dp off).run s with
    | .done (some de) s' => some de :: slotsRead fat dp n (u32 (off + recordSz)) s'
    | .done none _ => [none]
    | _ => []

/-- The program reads, and moves no more than the cursor of `dp`; it stops only for a reason in `ok`. -/
def Reads {α : Type} (dp : Ptr) (ok : Stop → Prop) (p : Fs α) : Prop :=
  p.Within (fun _ s s' => ∃ c k, s' = s.setCursor dp c k) ok

section Reads
variable {ok : Stop → Prop}

theorem Reads.ret {α : Type} (a : α) : Reads dp ok (.ret a : Fs α) := trivial

theorem Reads.stop {α : Type} {e : Stop} (h : ok e) : Reads dp ok (.stop e : Fs α) := h

theorem Reads.bind {α β : Type} {p : Fs α} {q : α → Fs β} (hp : Reads dp ok p) (hq : ∀ a, Reads dp ok (q a)) :
    Reads dp ok (p >>= q) := Prog.Within.bind hp hq

theorem Reads.ite {α : Type} {c : Prop} [Decidable c] {p q : Fs α} (hp : Reads dp ok p) (hq : Reads dp ok q) :
    Reads dp ok (if c then p else q) := by
  by_cases h : c
  · rw [if_pos h]
    exact hp
  · rw [if_neg h]
    exact hq

theorem reads_look {α : Type} (l : Label) {k : State → Fs α} (hk : ∀ s, Reads dp ok (k s)) :
    Reads dp ok (.act l some k) :=
  Prog.Within.look _ _ (fun s => ⟨_, _, (s.setCursor_self dp rfl rfl).symm⟩) hk

theorem reads_dirent (e : Ptr) : Reads dp ok (dirent e) := reads_look _ fun _ => .ret _

theorem reads_assign (c k : Dirent → Nat) :
    Reads dp ok (assign dp fun d => { d with curClus := c d, clusCnt := k d }) :=
  Prog.Within.change _ _ fun s => ⟨c (s.dirents dp), k (s.dirents dp), rfl⟩

theorem reads_bread (l : Label) (sec : Nat) : Reads dp ok (breadAt l sec) := reads_look _ fun _ => .ret _

theorem reads_readFatAt (l : Label) (c : Nat) : Reads dp ok (readFatAt fat l c) :=
  .ite (.ret _) (.ite (.ret _) ((reads_bread _ _).bind fun _ => .ret _))

theorem reads_relocForward (k n : Nat) : Reads dp ok (relocForward fat dp k false n) := by
  induction n with
  | zero => exact .ret _
  | succ n ih =>
    refine (reads_dirent dp).bind fun d => .ite ?_ (.ret _)
    refine (reads_readFatAt _ _).bind fun clus => .ite ?_ ((reads_assign _ _).bind fun _ => ih)
    exact (reads_assign _ _).bind fun _ => .ret _

variable (hpanic : ∀ msg, ok (.panic msg))
include hpanic

theorem reads_relocRewind (k n : Nat) : Reads dp ok (relocRewind fat dp k n) := by
  induction n with
  | zero => exact .ret _
  | succ n ih =>
    refine (reads_dirent dp).bind fun d => .ite ?_ (.ret _)
    exact (reads_readFatAt _ _).bind fun next => .ite (.stop (hpanic _)) ((reads_assign _ _).bind fun _ => ih)

theorem reads_relocClus (off : Nat) : Reads dp ok (relocClus fat dp off false) := by
  refine (reads_relocForward _ _).bind fun _ => .ite ?_ (.ret _)
  refine Reads.bind ?_ fun _ => .ret _
  exact (reads_dirent dp).bind fun _ => .ite ((reads_assign _ _).bind fun _ => reads_relocRewind hpanic _ _) (.ret _)

omit hpanic in
theorem reads_rwClusLoop (buf : Buf) (n fuel tot off sec : Nat) :
    Reads dp ok (rwClusLoop false buf n fuel tot off sec) := by
  induction fuel generalizing tot off sec with
  | zero => exact .ret _
  | succ fuel ih =>
    refine .ite ?_ (.ret _)
    exact (reads_bread _ _).bind fun _ => .ite ((ih _ _ _).bind fun _ => .ret _) (.ret _)

theorem reads_enextRead (off : Nat) : Reads dp ok (enextRead fat dp off) := by
  refine (reads_relocClus hpanic _).bind fun off2 => .ite (.ret _) ?_
  refine (reads_dirent _).bind fun d => Reads.bind (.ite (.stop (hpanic _)) (reads_rwClusLoop _ _ _ _ _ _)) fun r => ?_
  exact .ite (.ret _) (.ret _)

end Reads

theorem reads_enextLoop (room n off cnt : Nat) (open' : Bool) (total : Nat) (buf : Bytes) :
    Reads dp (fun _ => True) (enextLoop fat room dp n off cnt open' total buf) := by
  induction n generalizing off cnt open' total buf with
  | zero => exact .stop trivial
  | succ n ih =>
    refine (reads_enextRead (fun _ => trivial) _).bind fun r => ?_
    cases r with
    | none => exact .ret _
    | some de =>
      refine .ite (.ret _) (.ite (ih _ _ _ _ _) (.ite (.ite (.ret _) (.stop trivial)) (.ite ?_ ?_)))
      · exact .ite (.stop trivial) (.ite (.stop trivial) (ih _ _ _ _ _))
      · exact .ite (.stop trivial) (.ret _)

/-- `enext` changes nothing but the cursor of the directory. -/
theorem reads_enext (valid : Int) (off total : Nat) : Reads dp (fun _ => True) (enext fat dp valid off total) :=
  (reads_dirent _).bind fun _ => .ite (.stop trivial) (.ite (.stop trivial) (.ite (.stop trivial)
    (.ite (.ret _) (reads_enextLoop _ _ _ _ _ _ _))))

/-- A run of the loop meets a fault if the scan of what it reads does. -/
theorem fault_enextLoop_iff (n off cnt : Nat) (open' : Bool) (total : Nat) (buf : Bytes) (s : State)
    (w : String) :
    (enextLoop fat room dp n off cnt open' total buf).run s = .stopped (.fault w) ↔
      scan room (slotsRead fat dp n off s) cnt open' total buf = some (.error (.fault w)) := by
  induction n generalizing off cnt open' total buf s with
  | zero => simp [enextLoop, slotsRead, scan]
  | succ n ih =>
    rw [slotsRead]
    cases hr : (enextRead fat dp off).run s with
    | done r s' =>
      cases r with
      | none =>
        rw [run_enextLoop_end hr]
        simp [scan]
      | some de =>
        rw [run_enextLoop_slot hr]
        simp only [scan]
        cases scanSlot room de cnt open' total buf with
        | result r => simp
        | stop e => simp
        | next cnt open' total buf => exact ih ..
    | stopped e =>
      have hreads : Reads dp (fun e => ∀ w, e ≠ .fault w) (enextRead fat dp off) := by
        apply reads_enextRead
        intro msg w h
        cases h
      have he := hreads.run_stopped hr w
      rw [enextLoop, Prog.run_bind, hr]
      simpa [scan] using he
    | blocked =>
      rw [enextLoop, Prog.run_bind, hr]
      simp [scan]

/-! ### What a scan writes -/

def isDeleted : Option Bytes → Bool
  | some de => de 0 == emptyEntry
  | none => false

def isLive : Option Bytes → Bool
  | some de => live de
  | none => false

/-- The live long-name slots at the front. -/
def longRun : List (Option Bytes) → List Bytes
  | some de :: slots => if live de ∧ de 11 = attrLongName then de :: longRun slots else []
  | _ => []

/-- After deleted slots, if there are any, comes a live one. -/
def liveAhead (slots : List (Option Bytes)) : Bool := (slots.dropWhile isDeleted).head?.any isLive

/-- The slots that a scan can read without harm: those of the long name at the front have
numbers for which there is room, one of them at most is marked as the last, and where one
is, no deleted slots cut it off from what is live behind them. -/
structure Scannable (slots : List (Option Bytes)) : Prop where
  numbers : ∀ de ∈ longRun slots, 1 ≤ number de ∧ number de ≤ 19
  lasts : (longRun slots).countP isLast ≤ 1
  gap : (∃ de ∈ longRun slots, isLast de) →
    (slots.drop (longRun slots).length).head?.any isDeleted →
      ¬ liveAhead (slots.drop (longRun slots).length)

/-- Once deleted slots have been seen, all hangs on `count`. -/
theorem scan_gap_fault (slots : List (Option Bytes)) (cnt : Nat) (hcnt : cnt ≠ 0) (open' : Bool)
    (total : Nat) (buf : Bytes) :
    (∃ e, scan room slots cnt open' total buf = some (.error e)) ↔ open' = false ∧ liveAhead slots := by
  induction slots generalizing cnt with
  | nil => simp [scan, liveAhead]
  | cons slot slots ih =>
    cases slot with
    | none => simp [scan, liveAhead, isDeleted, isLive]
    | some de =>
      simp only [scan, scanSlot]
      by_cases h0 : de 0 = endOfEntry
      · have hne : endOfEntry ≠ emptyEntry := by decide
        simp [h0, liveAhead, isDeleted, isLive, live, hne]
      · by_cases h5 : de 0 = emptyEntry
        · have hd : liveAhead (some de :: slots) = liveAhead slots := by simp [liveAhead, isDeleted, h5]
          rw [if_neg h0, if_pos h5, hd]
          exact ih (cnt + 1) (by omega)
        · rw [if_neg h0, if_neg h5, if_pos hcnt]
          cases open' <;> simp [liveAhead, isDeleted, isLive, live, h0, h5]

/-- The scan of a long name, `open'` until its last part has been seen. -/
theorem scan_long_fault (slots : List (Option Bytes)) (open' : Bool) (total : Nat) (buf : Bytes)
    (hbuf : ∀ o, 247 ≤ o → buf o = 0) :
    (¬ ∃ e, scan nameArray slots 0 open' total buf = some (.error e)) ↔
      (∀ de ∈ longRun slots, 1 ≤ number de ∧ number de ≤ 19) ∧
      (longRun slots).countP isLast ≤ (if open' then 1 else 0) ∧
      ((open' = false ∨ ∃ de ∈ longRun slots, isLast de) →
        (slots.drop (longRun slots).length).head?.any isDeleted →
          ¬ liveAhead (slots.drop (longRun slots).length)) := by
  induction slots generalizing open' total buf with
  | nil => simp [scan, longRun]
  | cons slot slots ih =>
    cases slot with
    | none => simp [scan, longRun, isDeleted]
    | some de =>
      by_cases h0 : de 0 = endOfEntry
      · have hne : endOfEntry ≠ emptyEntry := by decide
        simp [scan, scanSlot, longRun, live, h0, isDeleted, hne]
      by_cases h5 : de 0 = emptyEntry
      · have hne : emptyEntry ≠ endOfEntry := by decide
        have hrun : longRun (some de :: slots) = [] := by simp [longRun, live, h5]
        have hahead : liveAhead (some de :: slots) = liveAhead slots := by simp [liveAhead, isDeleted, h5]
        have hs : scan nameArray (some de :: slots) 0 open' total buf =
            scan nameArray slots 1 open' total buf := by
          simp [scan, scanSlot, h5, hne]
        rw [hrun, hs, scan_gap_fault slots 1 (by omega)]
        simp [isDeleted, h5, hahead]
      have hlive : live de = true := by simp [live, h0, h5]
      by_cases hl : de 11 = attrLongName
      · have hrun : longRun (some de :: slots) = de :: longRun slots := by
          rw [longRun, if_pos ⟨hlive, hl⟩]
        rw [hrun]
        simp only [scan, scanSlot, if_neg h0, if_neg h5, hl, if_true, ne_eq, not_true, if_false]
        by_cases hc : isLast de ∧ ¬ open'
        · obtain ⟨hlast, hopen⟩ := hc
          simp [hlast, hopen]
        by_cases hnum : number de = 0 ∨ nameArray < number de * charLongName
        · have hout : ¬ (1 ≤ number de ∧ number de ≤ 19) := by
            unfold nameArray fat32MaxFilename charLongName at hnum
            omega
          rw [if_neg hc, if_pos hnum]
          simp [hout]
        · have hin : 1 ≤ number de ∧ number de ≤ 19 := by
            unfold nameArray fat32MaxFilename charLongName at hnum
            omega
          rw [if_neg hc, if_neg hnum]
          simp only
          rw [ih]
          · cases hlast : isLast de <;> cases open' <;> simp [hlast, hin] at hc ⊢
          · intro o ho
            rw [readEntryName_out _ _ (by unfold charLongName; omega)]
            exact hbuf o ho
      · have hrun : longRun (some de :: slots) = [] := by
          rw [longRun, if_neg (fun h => hl h.2)]
        have hname : (cstr nameArray (if open' then readEntryName 0 de buf else buf)).length ≠ nameArray := by
          refine (length_cstr_lt (o := fat32MaxFilename) (by decide) ?_).ne
          split
          · rw [readEntryName_out _ _ (by decide)]
            exact hbuf _ (by decide)
          · exact hbuf _ (by decide)
        rw [hrun]
        simp [scan, scanSlot, h0, h5, hl, hname, isDeleted]

/-- A scan of `dp` by `enext` from `off`, into a fresh entry, writes the name inside its array
only and nothing through `count` once that is NULL, however many slots it reads. -/
def EnextSafe (fat : Fat) (dp : Ptr) (off total : Nat) (s : State) : Prop :=
  ∀ rounds w, (enextIn fat nameArray rounds dp 0 off total).run s ≠ .stopped (.fault w)

theorem scan_safe_iff (slots : List (Option Bytes)) (total : Nat) :
    (∀ w, scan nameArray slots 0 true total (fun _ => 0) ≠ some (.error (.fault w))) ↔ Scannable slots := by
  have herr : ∀ slots' cnt open' total buf e, scan nameArray slots' cnt open' total buf = some (.error e) →
      ∃ w, e = .fault w := by
    intro slots'
    induction slots' with
    | nil => simp [scan]
    | cons slot slots' ih =>
      intro cnt open' total buf e h
      cases slot with
      | none => simp [scan] at h
      | some de =>
        simp only [scan, scanSlot] at h
        split_ifs at h <;> first | exact ⟨_, (Except.error.inj (Option.some.inj h)).symm⟩ | exact ih _ _ _ _ _ h | cases h
  have hiff := scan_long_fault slots true total (fun _ => 0) fun _ _ => rfl
  constructor
  · intro h
    obtain ⟨h1, h2, h3⟩ := hiff.mp fun ⟨e, he⟩ => by
      obtain ⟨w, rfl⟩ := herr _ _ _ _ _ _ he
      exact h w he
    exact ⟨h1, by simpa using h2, fun hl => h3 (.inr hl)⟩
  · intro h w he
    exact hiff.mpr ⟨h.numbers, by simpa using h.lasts, fun hl => h.gap (by simpa using hl)⟩ ⟨_, he⟩

/-- **A scan is safe exactly when the slots it meets are scannable.** -/
theorem enextSafe_iff (fat : Fat) (dp : Ptr) (off total : Nat) (s : State)
    (hattr : (s.dirents dp).attr &&& attrDirectory ≠ 0) (hvalid : (s.dirents dp).valid = 1)
    (hoff : off % recordSz = 0) :
    EnextSafe fat dp off total s ↔ ∀ rounds, Scannable (slotsRead fat dp rounds off s) := by
  have hrun : ∀ rounds, (enextIn fat nameArray rounds dp 0 off total).run s =
      (enextLoop fat nameArray dp rounds off 0 true total fun _ => 0).run s := by
    intro rounds
    rw [enextIn, Prog.run_bind_done (run_dirent ..), if_neg hattr, if_neg (by simp), if_neg (by simp [hoff]),
      if_neg (by simp [hvalid])]
  have hscan : ∀ rounds, (∀ w, (enextIn fat nameArray rounds dp 0 off total).run s ≠ .stopped (.fault w)) ↔
      Scannable (slotsRead fat dp rounds off s) := by
    intro rounds
    rw [← scan_safe_iff _ total]
    refine forall_congr' fun w => ?_
    rw [hrun, Ne, fault_enextLoop_iff]
  exact forall_congr' hscan

/-! A directory of one cluster. -/

/-- A volume with one data cluster, its sector 3, and two FATs. -/
def oneClus : Fat := ⟨⟨512, 1, 1, 2, 4, 1, 2⟩, 3, 1, 1, 512⟩

/-- Its root directory has these slots, and this value ends its chain. -/
def oneClusDir (mark : Nat) (slots : List Bytes) : State where
  disk sec o :=
    if sec = 0 then if o = 0 then 0xeb else 0
    else if sec = 3 then slots.getD (o / 32) (fun _ => 0) (o % 32)
    else putWord32 8 mark (fun _ => 0) o
  dirents := Function.update (fun _ => Dirent.zero) .root
    { Dirent.zero with attr := attrDirectory, firstClus := 2, curClus := 2, valid := 1, ref := 1 }
  lru := List.finRange _

/-- A slot with this first byte and these attributes. -/
def slotOf (order attr : Byte) : Bytes := fun o => if o = 0 then order else if o = 11 then attr else 0

/-- Slot 20 of a name is written behind its array; deleted slots between the last part of a
name and a live slot are counted through NULL. -/
theorem not_enextSafe :
    ¬ EnextSafe oneClus .root 0 0 (oneClusDir 0x0fffffff [slotOf 0x54 attrLongName]) ∧
    ¬ EnextSafe oneClus .root 0 0
      (oneClusDir 0x0fffffff [slotOf 0x41 attrLongName, slotOf emptyEntry 0, slotOf 0x41 0]) :=
  ⟨fun h => h 1 "enext: filename" rfl, fun h => h 3 "enext: count" rfl⟩

theorem enextSafe_oneClus : EnextSafe oneClus .root 0 0
    (oneClusDir 0x0fffffff [slotOf 0x41 attrLongName, slotOf 0x41 attrArchive]) := by
  refine (enextSafe_iff oneClus .root 0 0 _ (by decide) rfl rfl).mpr fun rounds => ?_
  match rounds with
  | 0 => constructor <;> simp [slotsRead, longRun]
  | 1 => constructor <;> decide
  | n + 2 =>
    -- the run is the first slot, whatever is read behind the second
    obtain ⟨a, b, rest, hrest, hnum, ha, hb, hdel⟩ : ∃ a b rest, slotsRead oneClus .root (n + 2) 0
        (oneClusDir 0x0fffffff [slotOf 0x41 attrLongName, slotOf 0x41 attrArchive]) = some a :: some b :: rest ∧
        number a = 1 ∧ (live a ∧ a 11 = attrLongName) ∧ ¬ (live b ∧ b 11 = attrLongName) ∧
        isDeleted (some b) = false :=
      ⟨_, _, _, rfl, by decide, by decide, by decide, by decide⟩
    have hrun : longRun (some a :: some b :: rest) = [a] := by
      rw [longRun, if_pos ha, longRun, if_neg hb]
    rw [hrest]
    constructor
    · simp [hrun, hnum]
    · rw [hrun]
      exact List.countP_le_length
    · simp [hrun, hdel]

end Farron
