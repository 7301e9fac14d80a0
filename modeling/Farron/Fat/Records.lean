import Farron.Fat.Slots

/-! What a directory lists.

A directory's slots are deleted slots and records in any order (`Layout`), a record
being the slots of a long name and one with the attributes, first cluster and size.
One scan reports the run of deleted slots it starts at, or the record (`scan_gap`,
`scan_record`); one scan after the other reports them all (`scan_partitions`). -/
namespace Farron
open Resumption Chains
variable {fat : Fat} {room : Nat} {dp : Ptr}

/-! ### Directories with a chain -/

/-- `dp` is a directory that can be read, and its clusters are `l`. -/
structure DirAt (fat : Fat) (s : State) (dp : Ptr) (l : List Nat) : Prop where
  attr : (s.dirents dp).attr &&& attrDirectory ≠ 0
  valid : (s.dirents dp).valid = 1
  chain : Chain fat s.disk l
  holds : Holds (s.dirents dp) l
  nonempty : l ≠ []

/-- Slot `k` of a directory with the clusters `l`; `none` behind the end of the chain. -/
def dirSlot (fat : Fat) (disk : Disk) (l : List Nat) (k : Nat) : Option Bytes :=
  if recordSz * k < l.length * fat.bytsPerClus then
    some fun o => if o < recordSz then chainByte fat disk l (recordSz * k + o) else 0
  else none

/-- The slots from `k` on are these. -/
def Shows (fat : Fat) (disk : Disk) (l : List Nat) (k : Nat) (slots : List (Option Bytes)) : Prop :=
  ∀ i slot, slots[i]? = some slot → dirSlot fat disk l (k + i) = slot

section Shows
variable {disk : Disk} {l : List Nat} {k : Nat} {slot : Option Bytes} {slots slots' : List (Option Bytes)}

theorem Shows.head (h : Shows fat disk l k (slot :: slots)) : dirSlot fat disk l k = slot := h 0 slot rfl

theorem Shows.tail (h : Shows fat disk l k (slot :: slots)) : Shows fat disk l (k + 1) slots := by
  intro i a ha
  rw [Nat.add_assoc, Nat.add_comm 1 i]
  exact h (i + 1) a ha

theorem Shows.left (h : Shows fat disk l k (slots ++ slots')) : Shows fat disk l k slots := by
  intro i a ha
  have hi := (List.getElem?_eq_some_iff.mp ha).1
  exact h i a (by rwa [List.getElem?_append_left hi])

theorem Shows.right (h : Shows fat disk l k (slots ++ slots')) : Shows fat disk l (k + slots.length) slots' := by
  intro i a ha
  rw [Nat.add_assoc]
  exact h (slots.length + i) a (by rwa [List.getElem?_append_right (by omega), Nat.add_sub_cancel_left])

end Shows

theorem DirAt.setCursor {s : State} {l : List Nat} (h : DirAt fat s dp l) {c j : Nat} (hj : l[j]? = some c) :
    DirAt fat (s.setCursor dp c j) dp l where
  attr := by simpa using h.attr
  valid := by simpa using h.valid
  chain := h.chain
  holds := ⟨by simpa using h.holds.first, fun _ => by simpa using hj⟩
  nonempty := h.nonempty

/-- The bytes of a slot lie in one cluster. -/
theorem slot_in_cluster (w : fat.Wf) (k : Nat) :
    recordSz * k % fat.bytsPerClus + recordSz ≤ fat.bytsPerClus := by
  have hb : fat.bytsPerClus = 32 * (16 * fat.bpb.secPerClus) := by
    rw [w.bytsPerClus_eq]
    omega
  have hpos := w.secPerClus_pos
  have hlt : k % (16 * fat.bpb.secPerClus) < 16 * fat.bpb.secPerClus := Nat.mod_lt _ (by omega)
  unfold recordSz
  rw [hb, Nat.mul_mod_mul_left]
  omega

/-- `enext` reads a slot of the directory, or finds the chain at its end. -/
theorem run_enextRead (w : fat.Wf) {s : State} {l : List Nat} (h : DirAt fat s dp l) {k : Nat}
    (hk : recordSz * k < 2 ^ 32) (hends : dirSlot fat s.disk l k = none → EndsRead fat s.disk l) :
    ∃ c j, l[j]? = some c ∧
      (enextRead fat dp (recordSz * k)).run s = .done (dirSlot fat s.disk l k) (s.setCursor dp c j) := by
  by_cases hin : recordSz * k < l.length * fat.bytsPerClus
  · obtain ⟨c, hc⟩ := exists_cluster w hin
    have hfit := slot_in_cluster w k
    have hlt := bytsPerClus_lt w
    have hread := run_rwClus_read w (h.chain.get_inRange hc) hfit (Buf.kernel fun _ => 0) (fun _ _ => rfl)
      (s.setCursor dp c (recordSz * k / fat.bytsPerClus))
    refine ⟨c, _, hc, ?_⟩
    rw [enextRead, Prog.run_bind_done (run_relocClus_within w hk hc false s h.chain h.holds), if_neg (by omega),
      Prog.run_bind_done (run_dirent ..), State.setCursor_same, ofInt_natCast (by omega),
      Prog.run_bind_done hread, if_neg (by simp), dirSlot, if_pos hin]
    simp only [Prog.pure_eq, Prog.run_ret, State.setCursor_disk, Outcome.done.injEq, Option.some.injEq, and_true]
    funext o
    by_cases ho : o < recordSz
    · have hdm := div_mod_add (b := fat.bytsPerClus) (o := recordSz * k) (i := o) (by omega)
      rw [if_pos ho, chainByte_eq (c := c) (by rwa [hdm.1]), hdm.2]
      simp [List.getD, ho]
    · rw [if_neg ho]
      simp [List.getD, ho]
  · obtain ⟨c, hc, hrun⟩ := run_relocClus_behind w hk (by omega) h.nonempty s h.chain h.holds
      (hends (if_neg hin))
    refine ⟨c, 0, hc, ?_⟩
    rw [enextRead, Prog.run_bind_done hrun, if_pos rfl, dirSlot, if_neg hin]
    rfl

/-- **The loop of `enext` on a directory is the scan of its slots.** -/
theorem run_enextLoop (w : fat.Wf) {l : List Nat} (slots : List (Option Bytes)) (k n cnt : Nat) (open' : Bool)
    (total : Nat) (buf : Bytes) {r : Except Stop Next} {s : State} (h : DirAt fat s dp l)
    (hshow : Shows fat s.disk l k slots) (hk : recordSz * (k + slots.length) ≤ 2 ^ 32)
    (hends : none ∈ slots → EndsRead fat s.disk l) (hn : slots.length ≤ n)
    (hscan : scan room slots cnt open' total buf = some r) :
    ∃ c j, l[j]? = some c ∧ (enextLoop fat room dp n (recordSz * k) cnt open' total buf).run s =
      match r with
      | .ok r => .done r (s.setCursor dp c j)
      | .error e => .stopped e := by
  induction slots generalizing k n cnt open' total buf s with
  | nil => simp [scan] at hscan
  | cons slot slots ih =>
    obtain ⟨n, rfl⟩ : ∃ m, n = m + 1 := ⟨n - 1, by simp only [List.length_cons] at hn; omega⟩
    have hslot := hshow.head
    have hk32 : recordSz * k < 2 ^ 32 := by
      simp only [List.length_cons, recordSz] at hk ⊢
      omega
    obtain ⟨c, j, hj, hread⟩ := run_enextRead w h hk32 fun hnone => hends (by simp [← hslot, hnone])
    rw [hslot] at hread
    cases slot with
    | none =>
      obtain rfl := Option.some.inj hscan
      exact ⟨c, j, hj, run_enextLoop_end hread ..⟩
    | some de =>
      rw [run_enextLoop_slot hread]
      rw [scan] at hscan
      cases hround : scanSlot room de cnt open' total buf with
      | result r' =>
        rw [hround] at hscan
        obtain rfl := Option.some.inj hscan
        exact ⟨c, j, hj, rfl⟩
      | stop e =>
        rw [hround] at hscan
        obtain rfl := Option.some.inj hscan
        exact ⟨c, j, hj, rfl⟩
      | next cnt' open'' total' buf' =>
        simp only [hround] at hscan ⊢
        have hne : slots ≠ [] := by
          rintro rfl
          simp [scan] at hscan
        have hpos := List.length_pos_iff.mpr hne
        have hoff : u32 (recordSz * k + recordSz) = recordSz * (k + 1) := by
          simp only [List.length_cons, recordSz] at hk ⊢
          rw [u32_of_lt (by omega)]
          omega
        obtain ⟨c', j', hj', hrun⟩ := ih (k + 1) n cnt' open'' total' buf' (h.setCursor hj) hshow.tail
          (by rw [List.length_cons] at hk; rwa [Nat.add_assoc, Nat.add_comm 1]) (fun hm => hends (List.mem_cons_of_mem _ hm))
          (by simpa using hn) hscan
        refine ⟨c', j', hj', ?_⟩
        rw [hoff, hrun, State.setCursor_setCursor]

/-! ### Records -/

/-- The slots of one file: those of its long name, numbered down to 1 with the first marked
as the last part, if it has one, and the slot with the rest. -/
structure Record where
  longs : List Bytes
  short : Bytes
  room : longs.length ≤ 19
  long : ∀ i de, longs[i]? = some de → de 11 = attrLongName ∧
    de 0 = UInt8.ofNat (longs.length - i) ||| if i = 0 then lastLongEntry else 0
  live : live short
  attr : short 11 ≠ attrLongName

/-- The low byte of character `o` of the name in long-name slots: it is in slot number
`o / 13 + 1`. -/
def spelled (longs : List Bytes) : Bytes := fun o =>
  match longs.reverse[o / charLongName]? with
  | some de => lowChar de (o % charLongName)
  | none => 0

namespace Record
variable (r : Record)

def slots : List Bytes := r.longs ++ [r.short]

def count : Nat := r.longs.length + 1

/-- The name, as a C string: the long one if there is one. -/
def name : CString :=
  if r.longs = [] then (shortString r.short).takeWhile (· != 0)
  else cstr (r.longs.length * charLongName) (spelled r.longs)

/-- What `enext` is to report. -/
def report : Next := ⟨1, r.count, r.name, some (readEntryInfo r.short)⟩

end Record

/-- The number and mark of a long-name slot with this first byte. -/
theorem long_order : ∀ n, n ≤ 19 → n ≠ 0 →
    (UInt8.ofNat n ≠ endOfEntry ∧ UInt8.ofNat n ≠ emptyEntry ∧ (UInt8.ofNat n &&& ~~~lastLongEntry).toNat = n ∧
      UInt8.ofNat n &&& lastLongEntry = 0) ∧
    (UInt8.ofNat n ||| lastLongEntry ≠ endOfEntry ∧ UInt8.ofNat n ||| lastLongEntry ≠ emptyEntry ∧
      ((UInt8.ofNat n ||| lastLongEntry) &&& ~~~lastLongEntry).toNat = n ∧
      (UInt8.ofNat n ||| lastLongEntry) &&& lastLongEntry ≠ 0) := by
  decide

/-- What the long-name slots put into the name array, one after the other. -/
def layName : List Bytes → Bytes → Bytes
  | [], buf => buf
  | de :: longs, buf => layName longs (readEntryName (longs.length * charLongName) de buf)

theorem layName_out (longs : List Bytes) (buf : Bytes) {o : Nat} (ho : longs.length * charLongName ≤ o) :
    layName longs buf o = buf o := by
  induction longs generalizing buf with
  | nil => rfl
  | cons de longs ih =>
    simp only [List.length_cons, charLongName] at ho ih ⊢
    rw [layName, ih _ (by omega)]
    exact readEntryName_out _ _ (by unfold charLongName; omega)

theorem layName_in (longs : List Bytes) (hlong : ∀ de ∈ longs, de 11 = attrLongName) (buf : Bytes)
    (hbuf : ∀ o, o < longs.length * charLongName → buf o = 0) {o : Nat}
    (ho : o < longs.length * charLongName) (hlow : ∀ i, i < o → spelled longs i ≠ 0) :
    layName longs buf o = spelled longs o := by
  induction longs generalizing buf with
  | nil => simp at ho
  | cons de longs ih =>
    have hhead : ∀ i, longs.length ≤ i / charLongName → i < (longs.length + 1) * charLongName →
        spelled (de :: longs) i = lowChar de (i % charLongName) := by
      intro i hi hi'
      have hdiv : i / charLongName = longs.length := by
        unfold charLongName at hi hi' ⊢
        omega
      rw [spelled, hdiv, List.reverse_cons, List.getElem?_append_right (by simp)]
      simp
    have htail : ∀ i, i / charLongName < longs.length → spelled (de :: longs) i = spelled longs i := by
      intro i hi
      rw [spelled, spelled, List.reverse_cons, List.getElem?_append_left (by simpa using hi)]
    rw [List.length_cons] at ho hbuf
    rw [layName]
    by_cases hin : o < longs.length * charLongName
    · have hdiv : o / charLongName < longs.length := by
        unfold charLongName at hin ⊢
        omega
      rw [htail o hdiv]
      refine ih (fun d hd => hlong d (List.mem_cons_of_mem _ hd)) _ (fun i hi => ?_) hin fun i hi => ?_
      · rw [readEntryName_out _ _ (.inl hi)]
        exact hbuf i (by unfold charLongName at hi ⊢; omega)
      · rw [← htail i (by unfold charLongName at hdiv ⊢; omega)]
        exact hlow i hi
    · obtain ⟨j, rfl⟩ := Nat.exists_eq_add_of_le (Nat.le_of_not_lt hin)
      have hj : j < 13 := by
        unfold charLongName at ho
        omega
      have hmod : ∀ i, i < 13 → (longs.length * charLongName + i) % charLongName = i ∧
          longs.length ≤ (longs.length * charLongName + i) / charLongName ∧
          longs.length * charLongName + i < (longs.length + 1) * charLongName := by
        intro i hi
        unfold charLongName
        omega
      rw [layName_out _ _ (by omega), hhead _ (hmod j hj).2.1 (hmod j hj).2.2, (hmod j hj).1]
      refine readEntryName_in (hlong de (by simp)) hj (fun i hi => hbuf _ (hmod i hi).2.2) fun i hi => ?_
      have hi' : i < 13 := by omega
      have := hlow (longs.length * charLongName + i) (by omega)
      rwa [hhead _ (hmod i hi').2.1 (hmod i hi').2.2, (hmod i hi').1] at this

/-- **The array holds the name**, whatever the characters behind its end. -/
theorem cstr_layName (longs : List Bytes) (hlong : ∀ de ∈ longs, de 11 = attrLongName) (hroom : longs.length ≤ 19) :
    cstr nameArray (layName longs fun _ => 0) = cstr (longs.length * charLongName) (spelled longs) := by
  rw [cstr_of_zeros (m := longs.length * charLongName) (by unfold nameArray fat32MaxFilename charLongName; omega)
    fun o ho => layName_out _ _ ho]
  exact cstr_congr fun o ho hlow => layName_in longs hlong _ (fun _ _ => rfl) ho hlow

/-! ### One scan -/

/-- The slots of a long name, once the last part has been seen. -/
theorem scan_longs (longs : List Bytes) (short : Bytes) (hlive : live short) (hattr : short 11 ≠ attrLongName)
    (hroom : longs.length ≤ 19) (hlong : ∀ i de, longs[i]? = some de → de 11 = attrLongName ∧
      de 0 = UInt8.ofNat (longs.length - i)) (total : Nat) (buf : Bytes)
    (hbuf : (cstr nameArray (layName longs buf)).length ≠ nameArray) :
    scan nameRoom ((longs ++ [short]).map some) 0 false total buf =
      some (.ok ⟨1, total, cstr nameArray (layName longs buf), some (readEntryInfo short)⟩) := by
  induction longs generalizing buf with
  | nil =>
    have h0 : short 0 ≠ endOfEntry ∧ short 0 ≠ emptyEntry := by simpa [live] using hlive
    have hbuf' : (cstr nameArray buf).length ≠ nameArray := hbuf
    simp [scan, scanSlot, h0, hattr, hbuf', layName]
  | cons de longs ih =>
    obtain ⟨hl, hde⟩ := hlong 0 de rfl
    rw [List.length_cons, Nat.sub_zero] at hde
    obtain ⟨h0, h5, hnum, hlast⟩ := (long_order (longs.length + 1) (by simpa using hroom) (by omega)).1
    have hslot : scanSlot nameRoom de 0 false total buf =
        .next 0 false total (readEntryName (longs.length * charLongName) de buf) := by
      have hn : number de = longs.length + 1 := by rw [number, hde, hnum]
      have hi : isLast de = false := by
        rw [isLast, hde, hlast]
        rfl
      have hfits : ¬ (number de = 0 ∨ nameRoom < number de * charLongName) := by
        rw [List.length_cons] at hroom
        rw [hn]
        unfold nameRoom charLongName
        omega
      rw [scanSlot, if_neg (by rwa [hde]), if_neg (by rwa [hde]), if_neg (by simp), if_pos hl,
        if_neg (by simp [hi]), if_neg hfits, hn, hi]
      rfl
    rw [List.cons_append, List.map_cons, scan, hslot]
    refine ih (by rw [List.length_cons] at hroom; omega) (fun i d hd => ?_) _ hbuf
    have := hlong (i + 1) d (by simpa using hd)
    rwa [List.length_cons, Nat.add_sub_add_right] at this

theorem length_shortString (de : Bytes) : (shortString de).length ≤ 12 := by
  have hle : ∀ n (f : Nat → Byte) (p : Byte → Bool), (((List.range n).map f).takeWhile p).length ≤ n := by
    intro n f p
    simpa using (List.takeWhile_prefix p (l := (List.range n).map f)).length_le
  have h8 := hle 8 de (· != charSpace)
  have h3 := hle 3 (fun i => de (8 + i)) (· != charSpace)
  simp only [shortString]
  split_ifs
  · rw [List.length_append, List.length_cons]
    omega
  · omega

/-- **A scan that starts at a record reports it.** -/
theorem scan_record (r : Record) (total : Nat) :
    scan nameRoom (r.slots.map some) 0 true total (fun _ => 0) = some (.ok r.report) := by
  obtain ⟨longs, short, hroom, hlong, hlive, hattr⟩ := r
  have h0 : short 0 ≠ endOfEntry ∧ short 0 ≠ emptyEntry := by simpa [live] using hlive
  cases longs with
  | nil =>
    have hname : cstr nameArray (readEntryName 0 short fun _ => 0) = (shortString short).takeWhile (· != 0) := by
      rw [← cstr_getD (n := nameArray) ((length_shortString short).trans (by decide))]
      congr 1
      funext o
      rw [readEntryName, if_neg hattr]
      by_cases ho : o < 13
      · rw [if_pos (by omega), Nat.sub_zero]
      · have hlen := length_shortString short
        rw [if_neg (by omega), List.getD, List.getElem?_eq_none (by omega)]
        rfl
    have hlen : ((shortString short).takeWhile (· != 0)).length ≠ nameArray := by
      have h1 := (List.takeWhile_prefix (· != (0 : Byte)) (l := shortString short)).length_le
      have h2 := length_shortString short
      have h3 : nameArray = 256 := rfl
      omega
    simp [Record.slots, Record.report, Record.name, Record.count, scan, scanSlot, h0, hattr, hname, hlen]
  | cons de longs =>
    obtain ⟨hl, hde⟩ := hlong 0 de rfl
    rw [List.length_cons, Nat.sub_zero, if_pos rfl] at hde
    obtain ⟨h0, h5, hnum, hlast⟩ := (long_order (longs.length + 1) (by simpa using hroom) (by omega)).2
    have hmem : ∀ d ∈ de :: longs, d 11 = attrLongName := by
      intro d hd
      obtain ⟨i, hi⟩ := List.getElem?_of_mem hd
      exact (hlong i d hi).1
    have hname := cstr_layName (de :: longs) hmem hroom
    have hlen : (cstr nameArray (layName (de :: longs) fun _ => 0)).length ≠ nameArray := by
      refine (length_cstr_lt (o := fat32MaxFilename) (by decide) (layName_out _ _ ?_)).ne
      unfold fat32MaxFilename charLongName
      omega
    have hslot : scanSlot nameRoom de 0 true total (fun _ => 0) =
        .next 0 false (longs.length + 2) (readEntryName (longs.length * charLongName) de fun _ => 0) := by
      have hn : number de = longs.length + 1 := by rw [number, hde, hnum]
      have hi : isLast de = true := by
        rw [isLast, hde]
        exact decide_eq_true hlast
      have hfits : ¬ (number de = 0 ∨ nameRoom < number de * charLongName) := by
        rw [List.length_cons] at hroom
        rw [hn]
        unfold nameRoom charLongName
        omega
      rw [scanSlot, if_neg (by rwa [hde]), if_neg (by rwa [hde]), if_neg (by simp), if_pos hl,
        if_neg (by simp), if_neg hfits, hn, hi]
      rfl
    have hrest : ∀ i d, longs[i]? = some d → d 11 = attrLongName ∧ d 0 = UInt8.ofNat (longs.length - i) := by
      intro i d hd
      have := hlong (i + 1) d (by simpa using hd)
      rw [List.length_cons, Nat.add_sub_add_right, if_neg (by omega)] at this
      simpa using this
    rw [Record.slots, List.cons_append, List.map_cons, scan, hslot]
    show scan nameRoom ((longs ++ [short]).map some) 0 false _ _ = _
    rw [scan_longs longs short hlive hattr (by rw [List.length_cons] at hroom; omega) hrest _ _ hlen]
    rw [layName] at hname
    simp [Record.report, Record.name, Record.count, hname]

/-- Deleted slots are counted. -/
theorem scan_deleted (gap : List Bytes) (hgap : ∀ de ∈ gap, de 0 = emptyEntry) (slots : List (Option Bytes))
    (cnt : Nat) (open' : Bool) (total : Nat) (buf : Bytes) :
    scan room (gap.map some ++ slots) cnt open' total buf = scan room slots (cnt + gap.length) open' total buf := by
  induction gap generalizing cnt with
  | nil => rfl
  | cons de gap ih =>
    have h5 := hgap de (by simp)
    have h0 : emptyEntry ≠ endOfEntry := by decide
    rw [List.map_cons, List.cons_append, scan, scanSlot, if_neg (by rwa [h5]), if_pos h5]
    simp only
    rw [ih fun d hd => hgap d (List.mem_cons_of_mem _ hd), List.length_cons, Nat.add_assoc, Nat.add_comm 1]

/-- **A scan that starts at deleted slots before a live one reports how many they are.** -/
theorem scan_gap (gap : List Bytes) (hgap : ∀ de ∈ gap, de 0 = emptyEntry) (hne : gap ≠ []) (de : Bytes)
    (hlive : live de) (total : Nat) :
    scan room ((gap ++ [de]).map some) 0 true total (fun _ => 0) = some (.ok ⟨0, gap.length, [], none⟩) := by
  have h0 : de 0 ≠ endOfEntry ∧ de 0 ≠ emptyEntry := by simpa [live] using hlive
  have hlen := List.length_pos_iff.mpr hne
  rw [List.map_append, scan_deleted gap hgap]
  simp [scan, scanSlot, h0, hne, cstr, nameArray, List.range_succ_eq_map]

/-- Deleted slots with nothing live behind them are the end. -/
theorem scan_end (gap : List Bytes) (hgap : ∀ de ∈ gap, de 0 = emptyEntry) (slot : Option Bytes)
    (hslot : ∀ de, slot = some de → de 0 = endOfEntry) (total : Nat) :
    scan room (gap.map some ++ [slot]) 0 true total (fun _ => 0) = some (.ok ⟨-1, total, [], none⟩) := by
  rw [scan_deleted gap hgap]
  cases slot with
  | none => simp [scan, cstr, nameArray, List.range_succ_eq_map]
  | some de => simp [scan, scanSlot, hslot de rfl, cstr, nameArray, List.range_succ_eq_map]

/-! ### One scan after the other -/

/-- Deleted slots, if any, and the record behind them. -/
structure Item where
  gap : List Bytes
  deleted : ∀ de ∈ gap, de 0 = emptyEntry
  record : Record

def Item.slots (x : Item) : List Bytes := x.gap ++ x.record.slots

/-- The slots of a directory up to the end of its chain: `tail` begins with an end mark,
if it is there. -/
structure Layout where
  items : List Item
  trailing : List Bytes
  deleted : ∀ de ∈ trailing, de 0 = emptyEntry
  tail : List Bytes
  ended : ∀ de, tail.head? = some de → de 0 = endOfEntry

namespace Layout

def used (items : List Item) : List Bytes := items.flatMap Item.slots

@[simp] theorem used_nil : used [] = [] := rfl

@[simp] theorem used_cons (x : Item) (items : List Item) : used (x :: items) = x.slots ++ used items := rfl

def slots (L : Layout) : List Bytes := used L.items ++ L.trailing ++ L.tail

/-- The directory with the clusters `l` has these slots. -/
def On (fat : Fat) (disk : Disk) (l : List Nat) (L : Layout) : Prop :=
  Shows fat disk l 0 (L.slots.map some ++ [none])

/-- The end is found: it has an offset, and if it is the end of the chain, its mark
is known for one. -/
def Ends (fat : Fat) (disk : Disk) (l : List Nat) (L : Layout) : Prop :=
  recordSz * ((used L.items).length + L.trailing.length) < 2 ^ 32 ∧ (L.tail = [] → EndsRead fat disk l)

end Layout

/-- What is to be reported of an item in the slots from `k` on: slot numbers and results. -/
def Item.reports (k : Nat) (x : Item) : List (Nat × Next) :=
  (if x.gap = [] then [] else [(k, ⟨0, x.gap.length, [], none⟩)]) ++ [(k + x.gap.length, x.record.report)]

def reports : Nat → List Item → List (Nat × Next)
  | _, [] => []
  | k, x :: items => x.reports k ++ reports (k + x.slots.length) items

/-- One `enext` after the other from `off` on, each `count` slots further: the offsets, and
what is reported there, until the end. -/
def enextAll (fat : Fat) (dp : Ptr) : Nat → Nat → Nat → Fs (List (Nat × Next))
  | 0, _, _ => spin
  | n + 1, off, total => do
    let r ← enext fat dp 0 off total
    if r.type = -1 then return []
    else
      let rest ← enextAll fat dp n (u32 (off + recordSz * r.count)) r.count
      return (off, r) :: rest

/-- Is the directory `dp` empty except for "." and ".." ? -/
def isdirempty (fat : Fat) (dp : Ptr) : Fs Bool := do
  let r ← enext fat dp 0 (2 * 32) 0
  return r.type == -1

/-- The reports lie one behind the other: they cover the slots from `k` to `e`. -/
def Follows : Nat → List (Nat × Next) → Nat → Prop
  | k, [], e => k = e
  | k, r :: rs, e => r.1 = k ∧ Follows (k + r.2.count) rs e

theorem Follows.le {k e : Nat} {rs : List (Nat × Next)} (h : Follows k rs e) : k ≤ e := by
  induction rs generalizing k with
  | nil => exact Nat.le_of_eq h
  | cons r rs ih => exact (Nat.le_add_right ..).trans (ih h.2)

theorem Follows.append {k m e : Nat} {rs rs' : List (Nat × Next)} (h : Follows k rs m) (h' : Follows m rs' e) :
    Follows k (rs ++ rs') e := by
  induction rs generalizing k with
  | nil =>
    obtain rfl : k = m := h
    exact h'
  | cons r rs ih => exact ⟨h.1, ih h.2⟩

/-- No slot is left out, none is in two reports. -/
theorem Follows.cover {k e : Nat} {rs : List (Nat × Next)} (h : Follows k rs e) :
    rs.flatMap (fun r => List.range' r.1 r.2.count) = List.range' k (e - k) := by
  induction rs generalizing k with
  | nil =>
    obtain rfl : k = e := h
    simp
  | cons r rs ih =>
    obtain ⟨rfl, hrest⟩ := h
    have hle := hrest.le
    rw [List.flatMap_cons, ih hrest, List.range'_append_1]
    congr 1
    omega

theorem Item.length_slots (x : Item) : x.slots.length = x.gap.length + x.record.count := by
  simp [Item.slots, Record.slots, Record.count]

theorem reports_follow (k : Nat) (items : List Item) : Follows k (reports k items) (k + (Layout.used items).length) := by
  induction items generalizing k with
  | nil => rfl
  | cons x items ih =>
    have hx : Follows k (x.reports k) (k + x.slots.length) := by
      rw [x.length_slots, Item.reports]
      by_cases hgap : x.gap = []
      · simp [hgap, Follows, Record.report]
      · simp [hgap, Follows, Record.report, Nat.add_assoc]
    rw [Layout.used_cons, List.length_append, ← Nat.add_assoc]
    exact hx.append (ih _)

theorem run_enext (w : fat.Wf) {l : List Nat} {slots : List (Option Bytes)} {k total : Nat} {r : Next} {s : State}
    (h : DirAt fat s dp l) (hshow : Shows fat s.disk l k slots) (hk : recordSz * (k + slots.length) ≤ 2 ^ 32)
    (hends : none ∈ slots → EndsRead fat s.disk l)
    (hscan : scan nameRoom slots 0 true total (fun _ => 0) = some (.ok r)) :
    ∃ c j, l[j]? = some c ∧ (enext fat dp 0 (recordSz * k) total).run s = .done r (s.setCursor dp c j) := by
  have hlen : slots.length ≤ maxSlots + 1 := by
    unfold recordSz at hk
    unfold maxSlots
    omega
  obtain ⟨c, j, hj, hrun⟩ := run_enextLoop w slots k (maxSlots + 1) 0 true total (fun _ => 0)
    h hshow hk hends hlen hscan
  refine ⟨c, j, hj, ?_⟩
  rw [enext, enextIn, Prog.run_bind_done (run_dirent ..), if_neg h.attr, if_neg (by simp),
    if_neg (by simp [Nat.mul_mod_right]), if_neg (by simp [h.valid]), hrun]

/-- The first slot of a record is live. -/
theorem Record.exists_first (r : Record) : ∃ de rest, r.slots = de :: rest ∧ Farron.live de := by
  obtain ⟨longs, short, hroom, hlong, hlive, hattr⟩ := r
  cases longs with
  | nil => exact ⟨short, [], rfl, hlive⟩
  | cons de longs =>
    obtain ⟨-, hde⟩ := hlong 0 de rfl
    rw [List.length_cons, Nat.sub_zero, if_pos rfl] at hde
    obtain ⟨h0, h5, -⟩ := (long_order (longs.length + 1) (by simpa using hroom) (by omega)).2
    refine ⟨de, longs ++ [short], rfl, ?_⟩
    rw [← hde] at h0 h5
    simp [Farron.live, h0, h5]

/-- At slot `k` of the directory with the clusters `l` on this disk, `enext` reports `r`. -/
def ReportsAt (fat : Fat) (dp : Ptr) (disk : Disk) (l : List Nat) (k : Nat) (r : Nat → Next) : Prop :=
  ∀ s total, DirAt fat s dp l → s.disk = disk → ∃ c j, l[j]? = some c ∧
    (enext fat dp 0 (recordSz * k) total).run s = .done (r total) (s.setCursor dp c j)

theorem Item.reportsAt (w : fat.Wf) {disk : Disk} {l : List Nat} {k : Nat} (x : Item)
    (hshow : Shows fat disk l k (x.slots.map some)) (hk : recordSz * (k + x.slots.length) ≤ 2 ^ 32)
    {r : Nat × Next} (hr : r ∈ x.reports k) : ReportsAt fat dp disk l r.1 fun _ => r.2 := by
  intro s total h hdisk
  subst hdisk
  rw [x.length_slots, recordSz] at hk
  rw [Item.slots, List.map_append] at hshow
  have hgap : r ∈ (if x.gap = [] then [] else [(k, ⟨0, x.gap.length, [], none⟩)] : List (Nat × Next)) →
      x.gap ≠ [] ∧ r = (k, ⟨0, x.gap.length, [], none⟩) := by
    intro hm
    by_cases he : x.gap = []
    · simp [he] at hm
    · exact ⟨he, by simpa [he] using hm⟩
  rcases List.mem_append.mp hr with hm | hm
  · obtain ⟨hne, rfl⟩ := hgap hm
    obtain ⟨de, more, hfirst, hlive⟩ := x.record.exists_first
    have hprefix : Shows fat s.disk l k ((x.gap ++ [de]).map some) := by
      rw [hfirst, List.map_cons, List.append_cons] at hshow
      simpa using hshow.left
    have hpos : 0 < x.record.count := Nat.succ_pos _
    refine run_enext w h hprefix ?_ (by simp) (scan_gap x.gap x.deleted hne de hlive total)
    simp only [List.length_map, List.length_append, List.length_singleton, recordSz]
    omega
  · obtain rfl := List.mem_singleton.mp hm
    have hrec := hshow.right
    rw [List.length_map] at hrec
    have hlen : x.record.slots.length = x.record.count := by simp [Record.slots, Record.count]
    refine run_enext w h hrec ?_ (by simp) (scan_record x.record total)
    rw [List.length_map, hlen, recordSz]
    omega

theorem reportsAt (w : fat.Wf) {disk : Disk} {l : List Nat} (items : List Item) (k : Nat)
    (hshow : Shows fat disk l k ((Layout.used items).map some))
    (hk : recordSz * (k + (Layout.used items).length) ≤ 2 ^ 32) {r : Nat × Next} (hr : r ∈ reports k items) :
    ReportsAt fat dp disk l r.1 fun _ => r.2 := by
  induction items generalizing k with
  | nil => simp [reports] at hr
  | cons x items ih =>
    rw [Layout.used_cons, List.map_append] at hshow
    rw [Layout.used_cons, List.length_append, recordSz] at hk
    rcases List.mem_append.mp hr with hx | hrest
    · exact x.reportsAt w hshow.left (by unfold recordSz; omega) hx
    · have hnext := hshow.right
      rw [List.length_map] at hnext
      exact ih _ hnext (by unfold recordSz; omega) hrest

/-- The end, behind deleted slots: an end mark or the end of the chain. -/
theorem endAt (w : fat.Wf) {disk : Disk} {l : List Nat} {k : Nat} (L : Layout)
    (hshow : Shows fat disk l k ((L.trailing ++ L.tail).map some ++ [none]))
    (hk : recordSz * (k + L.trailing.length) < 2 ^ 32) (hends : L.tail = [] → EndsRead fat disk l) :
    ReportsAt fat dp disk l k fun total => ⟨-1, total, [], none⟩ := by
  intro s total h hdisk
  subst hdisk
  obtain ⟨slot, more, hslot, hmark, hnone⟩ : ∃ slot more, L.tail.map some ++ [none] = slot :: more ∧
      (∀ de, slot = some de → de 0 = endOfEntry) ∧ (slot = none → L.tail = []) := by
    have hended := L.ended
    cases htail : L.tail with
    | nil => exact ⟨none, [], rfl, by simp, by simp⟩
    | cons de rest =>
      rw [htail] at hended
      exact ⟨some de, rest.map some ++ [none], rfl, by simpa using hended, by simp⟩
  have hprefix : Shows fat s.disk l k (L.trailing.map some ++ [slot]) := by
    rw [List.map_append, List.append_assoc, hslot, List.append_cons] at hshow
    exact hshow.left
  refine run_enext w h hprefix ?_ (fun hm => hends (hnone (by simpa [eq_comm] using hm)))
    (scan_end L.trailing L.deleted slot hmark total)
  simp only [List.length_append, List.length_map, List.length_singleton, recordSz] at hk ⊢
  omega

/-- Reports one behind the other and the end, read in turn. -/
theorem run_enextAll {disk : Disk} {l : List Nat} (rs : List (Nat × Next)) (k e n total : Nat) {s : State}
    (h : DirAt fat s dp l) (hdisk : s.disk = disk) (hfollow : Follows k rs e) (he : recordSz * e < 2 ^ 32)
    (hreport : ∀ r ∈ rs, ReportsAt fat dp disk l r.1 (fun _ => r.2) ∧ r.2.type ≠ -1)
    (hend : ReportsAt fat dp disk l e fun total => ⟨-1, total, [], none⟩) (hn : rs.length < n) :
    ∃ c j, l[j]? = some c ∧ (enextAll fat dp n (recordSz * k) total).run s =
      .done (rs.map fun r => (recordSz * r.1, r.2)) (s.setCursor dp c j) := by
  induction rs generalizing k n total s with
  | nil =>
    obtain ⟨n, rfl⟩ : ∃ m, n = m + 1 := ⟨n - 1, by omega⟩
    obtain rfl : k = e := hfollow
    obtain ⟨c, j, hj, hrun⟩ := hend s total h hdisk
    refine ⟨c, j, hj, ?_⟩
    rw [enextAll, Prog.run_bind_done hrun]
    rfl
  | cons r rs ih =>
    obtain ⟨n, rfl⟩ : ∃ m, n = m + 1 := ⟨n - 1, by omega⟩
    obtain ⟨rfl, hrest⟩ := hfollow
    obtain ⟨hat, htype⟩ := hreport r (by simp)
    obtain ⟨c, j, hj, hrun⟩ := hat s total h hdisk
    obtain ⟨c', j', hj', hrun'⟩ := ih (r.1 + r.2.count) n r.2.count (h.setCursor hj) hdisk hrest
      (fun a ha => hreport a (List.mem_cons_of_mem _ ha)) (by simpa using hn)
    have hoff : u32 (recordSz * r.1 + recordSz * r.2.count) = recordSz * (r.1 + r.2.count) := by
      have hle := hrest.le
      unfold recordSz at he ⊢
      rw [u32_of_lt (by omega)]
      omega
    refine ⟨c', j', hj', ?_⟩
    rw [enextAll, Prog.run_bind_done hrun, if_neg htype, hoff, Prog.run_bind_done hrun', State.setCursor_setCursor]
    rfl

/-- Nothing but the end is reported with type -1. -/
theorem reports_type {k : Nat} {items : List Item} {r : Nat × Next} (hr : r ∈ reports k items) : r.2.type ≠ -1 := by
  induction items generalizing k with
  | nil => simp [reports] at hr
  | cons x items ih =>
    rcases List.mem_append.mp hr with hx | hrest
    · rcases List.mem_append.mp hx with hm | hm
      · split_ifs at hm
        · simp at hm
        · obtain rfl := List.mem_singleton.mp hm
          simp
      · obtain rfl := List.mem_singleton.mp hm
        simp [Record.report]
    · exact ih hrest

/-- A directory with two short-name slots at its front, as `ealloc` makes them. -/
def Layout.Dotted (L : Layout) : Prop :=
  ∃ dot dotdot rest, L.items = dot :: dotdot :: rest ∧
    dot.slots = [dot.record.short] ∧ dotdot.slots = [dotdot.record.short]

/-- What scanning all of a directory is to do, on the condition `C`. -/
def ScanPartitions (C : Fat → Disk → List Nat → Layout → Prop) : Prop :=
  ∀ (fat : Fat) (dp : Ptr) (s : State) (l : List Nat) (L : Layout), fat.Wf → DirAt fat s dp l →
    L.On fat s.disk l → C fat s.disk l L →
    (∀ n total, (reports 0 L.items).length < n → ∃ s', (enextAll fat dp n 0 total).run s =
      .done ((reports 0 L.items).map fun r => (recordSz * r.1, r.2)) s' ∧ s'.disk = s.disk) ∧
    (reports 0 L.items).flatMap (fun r => List.range' r.1 r.2.count) = List.range (Layout.used L.items).length ∧
    (L.Dotted → ∃ s', (isdirempty fat dp).run s = .done (decide (L.items.length = 2)) s')

theorem reports_eq_nil_iff (k : Nat) (items : List Item) : reports k items = [] ↔ items = [] := by
  cases items with
  | nil => simp [reports]
  | cons x items => simp [reports, Item.reports]

section On
variable {s : State} {l : List Nat} {L : Layout} (w : fat.Wf) (hon : L.On fat s.disk l) (hends : L.Ends fat s.disk l)
include w hon hends

theorem Layout.reportsAt (dp : Ptr) {r : Nat × Next} (hr : r ∈ reports 0 L.items) :
    ReportsAt fat dp s.disk l r.1 fun _ => r.2 := by
  rw [On, Layout.slots, List.append_assoc, List.map_append, List.append_assoc] at hon
  have hlt := hends.1
  unfold recordSz at hlt
  exact Farron.reportsAt w L.items 0 hon.left (by unfold recordSz; omega) hr

theorem Layout.endAt (dp : Ptr) :
    ReportsAt fat dp s.disk l (used L.items).length fun total => ⟨-1, total, [], none⟩ := by
  rw [On, Layout.slots, List.append_assoc, List.map_append, List.append_assoc] at hon
  have hrest := hon.right
  rw [List.length_map, Nat.zero_add] at hrest
  exact Farron.endAt w L hrest hends.1 hends.2

/-- **Scanning from offset 0 reports every item once and then the end.** -/
theorem Layout.run_enextAll (h : DirAt fat s dp l) {n : Nat} (total : Nat) (hn : (reports 0 L.items).length < n) :
    ∃ c j, l[j]? = some c ∧ (enextAll fat dp n 0 total).run s =
      .done ((reports 0 L.items).map fun r => (recordSz * r.1, r.2)) (s.setCursor dp c j) := by
  have hfollow := reports_follow 0 L.items
  rw [Nat.zero_add] at hfollow
  have hlt := hends.1
  unfold recordSz at hlt
  exact Farron.run_enextAll _ 0 _ n total h rfl hfollow (by unfold recordSz; omega)
    (fun r hr => ⟨L.reportsAt w hon hends dp hr, reports_type hr⟩) (L.endAt w hon hends dp) hn

/-- `isdirempty` tells whether there are items behind the dots. -/
theorem Layout.run_isdirempty (h : DirAt fat s dp l) (hdots : L.Dotted) :
    ∃ c j, l[j]? = some c ∧
      (isdirempty fat dp).run s = .done (decide (L.items.length = 2)) (s.setCursor dp c j) := by
  obtain ⟨dot, dotdot, rest, hitems, hdot, hdotdot⟩ := hdots
  have hsplit : reports 0 L.items = dot.reports 0 ++ (dotdot.reports 1 ++ reports 2 rest) := by
    rw [hitems, reports, reports, hdot, hdotdot]
    rfl
  have hused : (Layout.used L.items).length = 2 + (Layout.used rest).length := by
    rw [hitems, Layout.used_cons, Layout.used_cons, hdot, hdotdot, List.length_append, List.length_append]
    simp only [List.length_singleton]
    omega
  have hitems' : L.items.length = 2 ↔ rest = [] := by
    rw [hitems]
    simp
  unfold isdirempty
  cases hrs : reports 2 rest with
  | nil =>
    have hnil := (reports_eq_nil_iff 2 rest).mp hrs
    have hend := L.endAt w hon hends dp
    rw [hused, hnil] at hend
    obtain ⟨c, j, hj, hrun⟩ := hend s 0 h rfl
    have hat : (enext fat dp 0 (2 * 32) 0).run s = .done ⟨-1, 0, [], none⟩ (s.setCursor dp c j) := hrun
    refine ⟨c, j, hj, ?_⟩
    rw [Prog.run_bind_done hat, decide_eq_true (hitems'.mpr hnil)]
    rfl
  | cons r rs =>
    have hne : rest ≠ [] := by
      intro hnil
      rw [(reports_eq_nil_iff 2 rest).mpr hnil] at hrs
      cases hrs
    have hr : r ∈ reports 2 rest := by simp [hrs]
    have hfollow := reports_follow 2 rest
    rw [hrs] at hfollow
    obtain ⟨c, j, hj, hrun⟩ := L.reportsAt w hon hends dp (r := r) (by simp [hsplit, hr]) s 0 h rfl
    rw [hfollow.1] at hrun
    have hat : (enext fat dp 0 (2 * 32) 0).run s = .done r.2 (s.setCursor dp c j) := hrun
    have htype : (r.2.type == -1) = false := by simpa using reports_type hr
    refine ⟨c, j, hj, ?_⟩
    rw [Prog.run_bind_done hat, htype, decide_eq_false (fun h2 => hne (hitems'.mp h2))]
    rfl

end On

theorem scan_partitions {fat : Fat} {dp : Ptr} {s : State} {l : List Nat} {L : Layout} (w : fat.Wf) (h : DirAt fat s dp l)
    (hon : L.On fat s.disk l) (hends : L.Ends fat s.disk l) :
    (∀ n total, (reports 0 L.items).length < n → ∃ s', (enextAll fat dp n 0 total).run s =
      .done ((reports 0 L.items).map fun r => (recordSz * r.1, r.2)) s' ∧ s'.disk = s.disk) ∧
    (reports 0 L.items).flatMap (fun r => List.range' r.1 r.2.count) = List.range (Layout.used L.items).length ∧
    (L.Dotted → ∃ s', (isdirempty fat dp).run s = .done (decide (L.items.length = 2)) s') := by
  refine ⟨fun n total hn => ?_, ?_, fun hdots => ?_⟩
  · obtain ⟨c, j, -, hrun⟩ := L.run_enextAll w hon hends h total hn
    exact ⟨_, hrun, rfl⟩
  · rw [(reports_follow 0 L.items).cover, Nat.zero_add, Nat.sub_zero, List.range_eq_range']
  · obtain ⟨c, j, -, hrun⟩ := L.run_isdirempty w hon hends h hdots
    exact ⟨_, hrun⟩

/-! Directories of one cluster. -/

theorem oneClus_wf : oneClus.Wf := by
  constructor <;> decide

theorem dirAt_oneClus {mark : Nat} (hmark : fat32Eoc ≤ mark) (hword : mark < 2 ^ 32) (slots : List Bytes) :
    DirAt oneClus (oneClusDir mark slots) .root [2] where
  attr := by
    show attrDirectory &&& attrDirectory ≠ 0
    decide
  valid := rfl
  chain := by
    refine ⟨.single ?_, fun c hc => ?_, List.nodup_singleton 2⟩
    · have hentry : fatEntry oneClus (oneClusDir mark slots).disk 2 = mark := by
        exact word32_putWord32 8 _ hword
      rwa [hentry]
    · obtain rfl : c = 2 := by simpa using hc
      decide
  holds := ⟨rfl, fun _ => rfl⟩
  nonempty := by simp

theorem shows_oneClus (mark : Nat) (slots : List Bytes) (hlen : slots.length = 16)
    (hzero : ∀ de ∈ slots, ∀ o, 32 ≤ o → de o = 0) :
    Shows oneClus (oneClusDir mark slots).disk [2] 0 (slots.map some ++ [none]) := by
  intro i slot hi
  rw [Nat.zero_add]
  by_cases hlt : i < 16
  · rw [List.getElem?_append_left (by simpa [hlen] using hlt), List.getElem?_map,
      List.getElem?_eq_getElem (by omega)] at hi
    obtain rfl : some slots[i] = slot := by simpa using hi
    rw [dirSlot, if_pos (by simp only [recordSz, List.length_singleton]; show 32 * i < 1 * 512; omega)]
    congr 1
    funext o
    by_cases ho : o < recordSz
    · have hq : recordSz * i + o < 512 := by
        unfold recordSz at ho ⊢
        omega
      have hc : [2][(recordSz * i + o) / oneClus.bytsPerClus]? = some 2 := by
        show [2][(recordSz * i + o) / 512]? = some 2
        rw [Nat.div_eq_of_lt hq]
        rfl
      rw [if_pos ho, chainByte_eq hc]
      show (oneClusDir mark slots).disk (3 + (recordSz * i + o) % 512 / 512) ((recordSz * i + o) % 512 % 512) = _
      rw [Nat.mod_mod, Nat.mod_eq_of_lt hq, Nat.div_eq_of_lt hq]
      show slots.getD ((recordSz * i + o) / 32) (fun _ => 0) ((recordSz * i + o) % 32) = _
      unfold recordSz at ho ⊢
      rw [show (32 * i + o) / 32 = i by omega, show (32 * i + o) % 32 = o by omega, List.getD,
        List.getElem?_eq_getElem (by omega), Option.getD_some]
    · rw [if_neg ho, hzero _ (List.getElem_mem _) o (by unfold recordSz at ho; omega)]
  · have hi16 : i = 16 := by
      have := (List.getElem?_eq_some_iff.mp hi).1
      simp [hlen] at this
      omega
    subst hi16
    rw [List.getElem?_append_right (by simp [hlen])] at hi
    obtain rfl : none = slot := by simpa [hlen] using hi
    rfl

/-! A directory with two deleted slots and one record. -/

/-- A file with a short name of one letter. -/
def letterRecord : Record where
  longs := []
  short := slotOf 0x41 attrArchive
  room := by decide
  long := by simp
  live := by decide
  attr := by decide

def gapLayout : Layout where
  items := [⟨List.replicate 2 (slotOf emptyEntry 0), by simp [slotOf], letterRecord⟩]
  trailing := []
  deleted := by simp
  tail := List.replicate 13 (slotOf 0 0)
  ended := by simp [slotOf, endOfEntry]

def gapDir : State := oneClusDir 0x0fffffff gapLayout.slots

theorem gapLayout_on : gapLayout.On oneClus gapDir.disk [2] := by
  refine shows_oneClus 0x0fffffff gapLayout.slots rfl fun de hde o ho => ?_
  have hslot : ∃ order attr, de = slotOf order attr := by
    simp only [gapLayout, Layout.slots, Layout.used, Item.slots, Record.slots, letterRecord, List.mem_append,
      List.flatMap_cons, List.flatMap_nil, List.mem_replicate, List.mem_singleton, List.not_mem_nil] at hde
    aesop
  obtain ⟨order, attr, rfl⟩ := hslot
  rw [slotOf, if_neg (by omega), if_neg (by omega)]

theorem gapLayout_ends : gapLayout.Ends oneClus gapDir.disk [2] := ⟨by decide, by simp [gapLayout]⟩

/-- The gap is passed over, the record reported, and the end mark read. -/
theorem scan_partitions_gap :
    (∀ n total, (reports 0 gapLayout.items).length < n → ∃ s', (enextAll oneClus .root n 0 total).run gapDir =
      .done ((reports 0 gapLayout.items).map fun r => (recordSz * r.1, r.2)) s' ∧ s'.disk = gapDir.disk) ∧
    (reports 0 gapLayout.items).flatMap (fun r => List.range' r.1 r.2.count) =
      List.range (Layout.used gapLayout.items).length ∧
    (gapLayout.Dotted → ∃ s', (isdirempty oneClus .root).run gapDir =
      .done (decide (gapLayout.items.length = 2)) s') :=
  scan_partitions oneClus_wf (dirAt_oneClus (by decide) (by decide) _) gapLayout_on gapLayout_ends

/-- Behind a chain that ends in 0xffffffff there is one more record: the boot sector. -/
theorem not_scanPartitions : ¬ ScanPartitions fun _ _ _ L =>
    recordSz * ((Layout.used L.items).length + L.trailing.length) < 2 ^ 32 := by
  intro h
  let L : Layout :=
    { items := List.replicate 16 ⟨[], by simp, letterRecord⟩
      trailing := []
      deleted := by simp
      tail := []
      ended := by simp }
  have hon : L.On oneClus (oneClusDir 0xffffffff (List.replicate 16 (slotOf 0x41 attrArchive))).disk [2] := by
    refine shows_oneClus 0xffffffff (List.replicate 16 (slotOf 0x41 attrArchive)) rfl fun de hde o ho => ?_
    rw [List.eq_of_mem_replicate hde, slotOf, if_neg (by omega), if_neg (by omega)]
  obtain ⟨s', hrun, -⟩ := (h oneClus .root _ [2] L oneClus_wf
    (dirAt_oneClus (by decide) (by decide) _) hon (by decide)).1 17 0 (by decide)
  have hvalue : ((enextAll oneClus .root 17 0 0).run
      (oneClusDir 0xffffffff (List.replicate 16 (slotOf 0x41 attrArchive)))).value?.isSome = true :=
    congrArg (fun o => o.value?.isSome) hrun
  revert hvalue
  decide +kernel

end Farron
