import Farron.Fat.Records

/-! Writing an entry's records and reading them back.

`emake` lays the slots of an entry (`entrySlots`) into the directory, which grows if need
be: they are spliced into the bytes of its chain (`run_emakeFile`). They are a record
whose name is the file name (`entryRecord`), so that a scan from there reports the entry
(`round_trip`). -/
namespace Farron
open Resumption Chains
variable {fat : Fat} {dp ep : Ptr}

/-! ### The slots of an entry -/

/-- The long-name slots `i`, `i - 1`, .., 1 of a name. -/
def longSlots (name : CString) (checksum : Byte) (i : Nat) : List Bytes :=
  (List.range i).map fun j => longRecord name (i - j) checksum

theorem longSlots_succ (name : CString) (checksum : Byte) (i : Nat) :
    longSlots name checksum (i + 1) = longRecord name (i + 1) checksum :: longSlots name checksum i := by
  rw [longSlots, List.range_succ_eq_map, List.map_cons, List.map_map]
  congr 1
  refine List.map_congr_left fun j _ => ?_
  rw [Function.comp_apply, Nat.succ_eq_add_one, Nat.add_sub_add_right]

@[simp] theorem length_longSlots (name : CString) (checksum : Byte) (i : Nat) :
    (longSlots name checksum i).length = i := by
  simp [longSlots]

/-- What `emake` writes for the entry. -/
def entrySlots (d : Dirent) : List Bytes :=
  longSlots d.filename (calChecksum (generateShortname d.filename)) (longCount d.filename) ++
    [shortRecord (generateShortname d.filename) d.attr d.firstClus d.fileSize]

@[simp] theorem length_entrySlots (d : Dirent) : (entrySlots d).length = longCount d.filename + 1 := by
  simp [entrySlots]

/-- Slots as bytes, one behind the other. -/
def slotBytes (slots : List Bytes) : Bytes := fun o => slots.getD (o / recordSz) (fun _ => 0) (o % recordSz)

theorem slotBytes_head (de : Bytes) (slots : List Bytes) {o : Nat} (ho : o < recordSz) :
    slotBytes (de :: slots) o = de o := by
  rw [slotBytes, Nat.div_eq_of_lt ho, Nat.mod_eq_of_lt ho]
  rfl

theorem slotBytes_tail (de : Bytes) (slots : List Bytes) (o : Nat) :
    slotBytes (de :: slots) (recordSz + o) = slotBytes slots o := by
  have hpos : 0 < recordSz := by decide
  rw [slotBytes, Nat.add_div_left _ hpos, Nat.add_mod_left]
  rfl

theorem slotBytes_left (slots slots' : List Bytes) {o : Nat} (ho : o < recordSz * slots.length) :
    slotBytes (slots ++ slots') o = slotBytes slots o := by
  have hq : o / recordSz < slots.length := Nat.div_lt_of_lt_mul ho
  rw [slotBytes, slotBytes, List.getD, List.getD, List.getElem?_append_left hq]

theorem slotBytes_right (slots slots' : List Bytes) (o : Nat) :
    slotBytes (slots ++ slots') (recordSz * slots.length + o) = slotBytes slots' o := by
  induction slots with
  | nil => rw [List.nil_append, List.length_nil, Nat.mul_zero, Nat.zero_add]
  | cons de slots ih =>
    rw [List.cons_append, List.length_cons, Nat.mul_succ, Nat.add_comm _ recordSz, Nat.add_assoc, slotBytes_tail, ih]

/-! ### Writing -/

theorem Spliced.congr {l l' : List Nat} {off n : Nat} {data data' : Bytes} {disk disk' : Disk}
    (h : Spliced fat l l' off n data disk disk') (hd : ∀ i, i < n → data i = data' i) :
    Spliced fat l l' off n data' disk disk' where
  extends' := h.extends'
  chain := h.chain
  entry := h.entry
  other := h.other
  byte o ho := by
    rw [h.byte o ho]
    by_cases hin : off ≤ o ∧ o < off + n
    · rw [if_pos hin, if_pos hin, hd _ (by omega)]
    · rw [if_neg hin, if_neg hin]
  fits := h.fits

/-- The directory after some of its bytes have been written, its cursor where that left it. -/
theorem DirAt.spliced {s : State} {l l' : List Nat} {off n : Nat} {data : Bytes} {disk' : Disk} {c j : Nat}
    (h : DirAt fat s dp l) (hs : Spliced fat l l' off n data s.disk disk') (hj : l'[j]? = some c) :
    DirAt fat ({ s with disk := disk' }.setCursor dp c j) dp l' := by
  have hfirst : l'.headD 0 = l.headD 0 := by
    obtain ⟨new, rfl, -⟩ := hs.extends'
    obtain ⟨a, rest, rfl⟩ := List.exists_cons_of_ne_nil h.nonempty
    rfl
  constructor
  · rw [State.setCursor_same]
    exact h.attr
  · rw [State.setCursor_same]
    exact h.valid
  · exact hs.chain
  · rw [State.setCursor_same]
    exact ⟨h.holds.first.trans hfirst.symm, fun _ => hj⟩
  · intro hnil
    rw [hnil] at hj
    cases hj

section Write
variable (w : fat.Wf)
include w

theorem run_emakeRecord {k : Nat} (hk : recordSz * k < 2 ^ 32) (de : Bytes) {s : State} {l : List Nat}
    (h : DirAt fat s dp l) (hsteps : (emakeRecord fat dp (recordSz * k) de).Steps (Sound fat) s) :
    ∃ l' disk' c j, (emakeRecord fat dp (recordSz * k) de).run s =
        .done () ({ s with disk := disk' }.setCursor dp c j) ∧ l'[j]? = some c ∧
      Spliced fat l l' (recordSz * k) recordSz de s.disk disk' := by
  obtain ⟨l', disk₁, c, hrun, hg, hc, -⟩ :=
    run_relocClus_alloc w hk s h.nonempty h.chain h.holds (Prog.steps_bind_left hsteps)
  have hfit := slot_in_cluster w k
  have hlt := bytsPerClus_lt w
  obtain ⟨disk', hw, hwr⟩ := run_rwClus_write w (hg.chain.get_inRange hc) hfit (Buf.kernel de) (fun _ _ => rfl)
    ({ s with disk := disk₁ }.setCursor dp c (recordSz * k / fat.bytsPerClus))
  refine ⟨l', disk', c, _, ?_, hc, ?_⟩
  · rw [emakeRecord, Prog.run_bind_done hrun, Prog.run_bind_done (run_dirent ..), State.setCursor_same,
      ofInt_natCast (by omega), Prog.run_bind_done hw]
    rfl
  · have hin : Spliced fat l' l' (recordSz * k) recordSz de disk₁ disk' := hwr.spliced w hg.chain hc rfl hfit
    have hboth := (hg.spliced w (recordSz * k) de).trans (by simpa using hin)
    simpa using hboth

/-- The long-name slots. -/
theorem run_emakeLong (name : CString) (checksum : Byte) (i k : Nat) (hk : recordSz * (k + i) < 2 ^ 32) {s : State}
    {l : List Nat} (h : DirAt fat s dp l)
    (hsteps : (emakeLong fat dp name checksum i (recordSz * k)).Steps (Sound fat) s) :
    ∃ l' disk' c j, (emakeLong fat dp name checksum i (recordSz * k)).run s =
        .done (recordSz * (k + i)) ({ s with disk := disk' }.setCursor dp c j) ∧ l'[j]? = some c ∧
      Spliced fat l l' (recordSz * k) (recordSz * i) (slotBytes (longSlots name checksum i)) s.disk disk' := by
  induction i generalizing k s l with
  | zero =>
    refine ⟨l, s.disk, _, _, ?_, h.holds.cursor h.nonempty, .refl h.chain _ _⟩
    rw [State.setCursor_self { s with disk := s.disk } dp rfl rfl]
    rfl
  | succ i ih =>
    unfold recordSz at hk
    obtain ⟨l₁, disk₁, c₁, j₁, hrun, hj₁, hs⟩ := run_emakeRecord w (by unfold recordSz; omega) _ h
      (Prog.steps_bind_left hsteps)
    have hoff : u32 (recordSz * k + recordSz) = recordSz * (k + 1) := by
      unfold recordSz
      rw [u32_of_lt (by omega)]
      omega
    have hnext := Prog.steps_bind_done hsteps hrun
    rw [hoff] at hnext
    obtain ⟨l', disk', c, j, hrun', hj, hs'⟩ := ih (k + 1) (by unfold recordSz; omega) (h.spliced hs hj₁) hnext
    refine ⟨l', disk', c, j, ?_, hj, ?_⟩
    · rw [emakeLong, Prog.run_bind_done hrun, hoff, hrun', show k + 1 + i = k + (i + 1) by omega]
      exact congrArg _ (State.setCursor_setCursor { s with disk := disk' } ..)
    · rw [longSlots_succ]
      have hlen : recordSz + recordSz * i = recordSz * (i + 1) := by rw [Nat.mul_succ, Nat.add_comm]
      have hhead := hs.congr fun o ho => (slotBytes_head _ (longSlots name checksum i) ho).symm
      rw [← hlen]
      refine hhead.trans ?_
      simp only [slotBytes_tail]
      exact hs'

theorem run_emakeFile {k : Nat} {s : State} {l : List Nat} (h : DirAt fat s dp l)
    (hk : recordSz * k + recordSz * (longCount (s.dirents ep).filename + 1) ≤ 2 ^ 32)
    (hsteps : (emakeFile fat dp ep (recordSz * k)).Steps (Sound fat) s) :
    ∃ l' disk' c j, (emakeFile fat dp ep (recordSz * k)).run s =
        .done () ({ s with disk := disk' }.setCursor dp c j) ∧ l'[j]? = some c ∧
      Spliced fat l l' (recordSz * k) (recordSz * (longCount (s.dirents ep).filename + 1))
        (slotBytes (entrySlots (s.dirents ep))) s.disk disk' := by
  unfold recordSz at hk
  obtain ⟨d, hd⟩ : ∃ d, d = s.dirents ep := ⟨_, rfl⟩
  have hfirst : (do
      let off ← emakeLong fat dp d.filename (calChecksum (generateShortname d.filename)) (longCount d.filename)
        (recordSz * k)
      let e ← dirent ep
      emakeRecord fat dp off (shortRecord (generateShortname d.filename) e.attr e.firstClus e.fileSize) :
        Fs Unit).Steps (Sound fat) s := by
    rw [hd]
    exact Prog.steps_bind_done (p := dirent ep) hsteps (run_dirent ep s)
  rw [← hd] at hk ⊢
  obtain ⟨l₁, disk₁, c₁, j₁, hrun, hj₁, hs⟩ := run_emakeLong w d.filename
    (calChecksum (generateShortname d.filename)) (longCount d.filename) k (by unfold recordSz; omega) h
    (Prog.steps_bind_left hfirst)
  obtain ⟨s₁, hs₁⟩ : ∃ s₁, s₁ = { s with disk := disk₁ }.setCursor dp c₁ j₁ := ⟨_, rfl⟩
  have hsame : (s₁.dirents ep).attr = d.attr ∧ (s₁.dirents ep).firstClus = d.firstClus ∧
      (s₁.dirents ep).fileSize = d.fileSize := by
    by_cases he : ep = dp
    · rw [hs₁, hd, he, State.setCursor_same]
      exact ⟨rfl, rfl, rfl⟩
    · rw [hs₁, hd, State.setCursor_ne _ _ _ he]
      exact ⟨rfl, rfl, rfl⟩
  have hrest := Prog.steps_bind_done hfirst hrun
  have hlast := Prog.steps_bind_done hrest (run_dirent ..)
  have hdir := h.spliced hs hj₁
  rw [← hs₁] at hlast hdir hrun
  rw [hsame.1, hsame.2.1, hsame.2.2] at hlast
  obtain ⟨l', disk', c, j, hrun', hj, hs'⟩ := run_emakeRecord w (by unfold recordSz; omega) _ hdir hlast
  refine ⟨l', disk', c, j, ?_, hj, ?_⟩
  · rw [emakeFile, Prog.run_bind_done (run_dirent ..), ← hd]
    simp only
    rw [Prog.run_bind_done hrun, Prog.run_bind_done (run_dirent ..), hsame.1, hsame.2.1, hsame.2.2, hrun', hs₁]
    exact congrArg _ (State.setCursor_setCursor { s with disk := disk' } ..)
  · have hlen := length_longSlots d.filename (calChecksum (generateShortname d.filename)) (longCount d.filename)
    have hfront : Spliced fat l l₁ (recordSz * k) (recordSz * longCount d.filename) (slotBytes (entrySlots d))
        s.disk disk₁ := hs.congr fun o ho => (slotBytes_left _ _ (by rwa [hlen])).symm
    rw [Nat.mul_succ]
    refine hfront.trans ?_
    rw [hs₁, Nat.mul_add] at hs'
    refine hs'.congr fun o ho => ?_
    have hright := slotBytes_right (longSlots d.filename (calChecksum (generateShortname d.filename))
      (longCount d.filename)) [shortRecord (generateShortname d.filename) d.attr d.firstClus d.fileSize] o
    rw [hlen] at hright
    rw [entrySlots, hright, slotBytes_head _ _ ho]

end Write

/-! ### The record -/

/-- Where a record's characters are: nowhere else, each at its place. -/
theorem longCharOff_find : ∀ j, j < charLongName → longCharOff j ≠ 0 ∧ longCharOff j ≠ 11 ∧ longCharOff j ≠ 13 ∧
    (List.range charLongName).find? (fun i => longCharOff j == longCharOff i || longCharOff j == longCharOff i + 1) =
      some j := by
  decide

theorem lowChar_longRecord (name : CString) (i : Nat) (checksum : Byte) {j : Nat} (hj : j < charLongName) :
    lowChar (longRecord name i checksum) j = (longChar name ((i - 1) * charLongName + j)).1 := by
  obtain ⟨h0, h11, h13, hfind⟩ := longCharOff_find j hj
  simp only [lowChar, recordChar, longRecord, if_neg h0, if_neg h11, if_neg h13, hfind, if_true]

/-- The names that `emake` can lay down: what `formatname` accepts, in at most 19 slots. -/
structure Storable (d : Dirent) : Prop where
  nonempty : d.filename ≠ []
  accepted : (formatname d.filename).isSome
  length : d.filename.length ≤ 247
  first : (generateShortname d.filename).head? ≠ some emptyEntry
  attr : d.attr ≠ attrLongName
  clus : d.firstClus < 2 ^ 32
  size : d.fileSize < 2 ^ 32

theorem ne_zero_of_accepted {name : CString} (h : (formatname name).isSome) {c : Byte} (hc : c ∈ name) : c ≠ 0 := by
  intro hz
  subst hz
  rw [← List.takeWhile_append_dropWhile (p := fun c => c == charSpace || c == charDot) (l := name)] at hc
  rcases List.mem_append.mp hc with hfront | hrest
  · exact absurd (List.mem_takeWhile_imp hfront) (by decide)
  · have hany : ((name.dropWhile fun c => c == charSpace || c == charDot).any fun c =>
        c < 0x20 || formatnameIllegal.contains c) = true :=
      List.any_eq_true.mpr ⟨0, hrest, by decide⟩
    rw [formatname, if_pos hany] at h
    cases h

theorem shortnameChar_ne_zero {c : Byte} (hc : c ≠ 0) : shortnameChar c ≠ 0 := by
  unfold shortnameChar
  split_ifs with hlower hillegal
  · intro hz
    have hspace : c = 0x20 := by rw [← UInt8.sub_add_cancel c 0x20, hz, UInt8.zero_add]
    rw [hspace] at hlower
    exact absurd hlower.1 (by decide)
  · decide
  · exact hc

theorem shortnameLoop_ne_zero {name : CString} (hname : ∀ c ∈ name, c ≠ 0) (fuel : Nat) (out : CString)
    (hout : ∀ c ∈ out, c ≠ 0) (pos : Nat) (p : Option Nat) : ∀ c ∈ shortnameLoop name fuel out pos p, c ≠ 0 := by
  induction fuel generalizing out pos p with
  | zero => exact hout
  | succ fuel ih =>
    simp only [shortnameLoop]
    split_ifs with hin
    · exact hout
    · exact ih out hout _ _
    · exact ih out hout _ _
    · refine ih _ (fun c hc => ?_) _ _
      rcases List.mem_append.mp hc with hc | hc
      · exact hout c hc
      · rw [List.eq_of_mem_replicate hc]
        decide
    · exact ih out hout _ _
    · refine ih _ (fun c hc => ?_) _ _
      rcases List.mem_append.mp hc with hc | hc
      · exact hout c hc
      · obtain rfl := List.mem_singleton.mp hc
        refine shortnameChar_ne_zero (hname _ ?_)
        rw [List.getD, List.getElem?_eq_getElem hin.2]
        exact List.getElem_mem _
    · exact hout

/-- A short name begins with some character. -/
theorem generateShortname_head {name : CString} (hname : ∀ c ∈ name, c ≠ 0) :
    ∃ c rest, generateShortname name = c :: rest ∧ c ≠ 0 := by
  have hall : ∀ c ∈ generateShortname name, c ≠ 0 := by
    intro c hc
    rcases List.mem_append.mp hc with hc | hc
    · exact shortnameLoop_ne_zero hname _ _ (by simp) _ _ c hc
    · rw [List.eq_of_mem_replicate hc]
      decide
  have hlen : charShortName ≤ (generateShortname name).length := by
    rw [generateShortname, List.length_append, List.length_replicate]
    omega
  cases hgen : generateShortname name with
  | nil =>
    rw [hgen] at hlen
    exact absurd hlen (by decide)
  | cons c rest => exact ⟨c, rest, rfl, hall c (by simp [hgen])⟩

/-- The slots of an entry as a record. -/
def entryRecord (d : Dirent) (hd : Storable d) : Record where
  longs := longSlots d.filename (calChecksum (generateShortname d.filename)) (longCount d.filename)
  short := shortRecord (generateShortname d.filename) d.attr d.firstClus d.fileSize
  room := by
    have := hd.length
    rw [length_longSlots, longCount]
    unfold charLongName
    omega
  long i de hde := by
    have hlt := (List.getElem?_eq_some_iff.mp hde).1
    rw [length_longSlots] at hlt ⊢
    have hde' : longRecord d.filename (longCount d.filename - i) (calChecksum (generateShortname d.filename)) = de := by
      simpa [longSlots, hlt] using hde
    subst hde'
    refine ⟨rfl, ?_⟩
    show _ ||| (if longCount d.filename - i = longCount d.filename then _ else _) = _
    by_cases h0 : i = 0
    · rw [if_pos (by omega), if_pos h0]
    · rw [if_neg (by omega), if_neg h0]
  live := by
    obtain ⟨c, rest, hgen, hc⟩ := generateShortname_head fun c hc => ne_zero_of_accepted hd.accepted hc
    have hfirst := hd.first
    rw [hgen] at hfirst
    have hbyte : shortRecord (generateShortname d.filename) d.attr d.firstClus d.fileSize 0 = c := by
      rw [hgen]
      rfl
    rw [live, hbyte]
    simpa [endOfEntry, hc] using hfirst
  attr := hd.attr

theorem cstr_longChar {name : CString} (hname : ∀ c ∈ name, c ≠ 0) {n : Nat} (hn : name.length ≤ n) :
    cstr n (fun o => (longChar name o).1) = name := by
  have hsame : cstr n (fun o => (longChar name o).1) = cstr n fun o => name.getD o 0 := by
    refine cstr_congr fun o _ hfull => ?_
    have hle : o ≤ name.length := by
      by_contra hgt
      exact hfull name.length (by omega) (by simp [List.getD])
    rcases Nat.lt_or_eq_of_le hle with hlt | heq
    · rw [longChar, if_pos hlt]
    · rw [longChar, if_neg (by omega), if_pos heq, heq]
      simp [List.getD]
  rw [hsame, cstr_getD hn]
  exact List.takeWhile_eq_self_iff.mpr fun c hc => by simpa using hname c hc

theorem spelled_longSlots (name : CString) (checksum : Byte) {i o : Nat} (ho : o < i * charLongName) :
    spelled (longSlots name checksum i) o = (longChar name o).1 := by
  have hget : ∀ q, q < i →
      (longSlots name checksum i).reverse[q]? = some (longRecord name (q + 1) checksum) := by
    intro q hq
    rw [List.getElem?_reverse (by simpa using hq), length_longSlots, longSlots, List.getElem?_map,
      List.getElem?_range (by omega), Option.map_some]
    congr 2
    omega
  have hj : o % charLongName < charLongName := Nat.mod_lt _ (by decide)
  rw [spelled, hget _ ((Nat.div_lt_iff_lt_mul (by decide)).mpr ho)]
  simp only
  rw [lowChar_longRecord name _ checksum hj, Nat.add_sub_cancel, Nat.mul_comm, Nat.div_add_mod]

/-- **The name comes back as it was.** -/
theorem entryRecord_name (d : Dirent) (hd : Storable d) : (entryRecord d hd).name = d.filename := by
  have hpos : 0 < d.filename.length := List.length_pos_iff.mpr hd.nonempty
  have hcount : 0 < longCount d.filename := by
    unfold longCount charLongName
    omega
  have hroom : d.filename.length ≤ longCount d.filename * charLongName := by
    unfold longCount charLongName
    omega
  have hne : (entryRecord d hd).longs ≠ [] := by
    intro hnil
    have := congrArg List.length hnil
    simp [entryRecord] at this
    omega
  rw [Record.name, if_neg hne]
  show cstr ((longSlots _ _ _).length * charLongName) (spelled (longSlots _ _ _)) = _
  rw [length_longSlots]
  exact (cstr_congr fun o ho _ => spelled_longSlots _ _ ho).trans
    (cstr_longChar (fun c hc => ne_zero_of_accepted hd.accepted hc) hroom)

theorem word_of_bytes {v : Nat} (hv : v < 2 ^ 32) : (wordByte v 0).toNat + 256 * (wordByte v 1).toNat +
    65536 * (wordByte v 2).toNat + 16777216 * (wordByte v 3).toNat = v := by
  simp only [wordByte, UInt8.toNat_ofNat']
  omega

theorem entryRecord_info (d : Dirent) (hd : Storable d) :
    readEntryInfo (entryRecord d hd).short = ⟨d.attr, d.firstClus, d.fileSize⟩ := by
  have hclus : recordClus (entryRecord d hd).short = d.firstClus := word_of_bytes hd.clus
  have hsize : recordSize (entryRecord d hd).short = d.fileSize := word_of_bytes hd.size
  rw [readEntryInfo, hclus, hsize]
  rfl

/-! ### The round trip -/

theorem longCharOff_lt : ∀ j, j < charLongName → longCharOff j + 1 < recordSz := by
  decide

/-- The slots of an entry are 32 bytes long. -/
theorem entrySlots_zero (d : Dirent) {de : Bytes} (hde : de ∈ entrySlots d) {o : Nat} (ho : recordSz ≤ o) : de o = 0 := by
  have h32 : recordSz = 32 := rfl
  rcases List.mem_append.mp hde with hl | hs
  · obtain ⟨j, -, rfl⟩ := List.mem_map.mp hl
    have hnone : (List.range charLongName).find? (fun i => o == longCharOff i || o == longCharOff i + 1) = none := by
      rw [List.find?_eq_none]
      intro i hi
      have hlt := longCharOff_lt i (List.mem_range.mp hi)
      simp only [Bool.or_eq_true, beq_iff_eq, not_or]
      omega
    simp only [longRecord, hnone]
    rw [if_neg (by omega), if_neg (by omega), if_neg (by omega)]
  · obtain rfl := List.mem_singleton.mp hs
    unfold shortRecord
    rw [if_neg (by omega), if_neg (by omega), if_neg (by omega), if_neg (by omega), if_neg (by omega)]

/-- The slots written are what the directory shows there. -/
theorem Spliced.shows {l l' : List Nat} {k : Nat} {slots : List Bytes} {disk disk' : Disk}
    (hne : slots ≠ []) (hzero : ∀ de ∈ slots, ∀ o, recordSz ≤ o → de o = 0)
    (h : Spliced fat l l' (recordSz * k) (recordSz * slots.length) (slotBytes slots) disk disk') :
    Shows fat disk' l' k (slots.map some) := by
  intro i slot hi
  have hlt : i < slots.length := by simpa using (List.getElem?_eq_some_iff.mp hi).1
  have hslot : some slots[i] = slot := by simpa [hlt] using hi
  have hpos := List.length_pos_iff.mpr hne
  have hfits := h.fits (by unfold recordSz; omega)
  have hle : recordSz * k + recordSz * (i + 1) ≤ l'.length * fat.bytsPerClus :=
    (Nat.add_le_add_left (Nat.mul_le_mul_left _ hlt) _).trans hfits
  unfold recordSz at hle
  rw [dirSlot, if_pos (by unfold recordSz; omega), ← hslot]
  congr 1
  funext o
  by_cases ho : o < recordSz
  · have ho' : o < 32 := ho
    rw [if_pos ho, h.byte _ (by unfold recordSz; omega), if_pos (by unfold recordSz; omega), slotBytes]
    have hq : (recordSz * (k + i) + o - recordSz * k) / recordSz = i := by
      unfold recordSz
      omega
    have hr : (recordSz * (k + i) + o - recordSz * k) % recordSz = o := by
      unfold recordSz
      omega
    rw [hq, hr, List.getD, List.getElem?_eq_getElem hlt, Option.getD_some]
  · rw [if_neg ho, hzero _ (List.getElem_mem hlt) o (by omega)]

/-- What writing an entry and reading it back is to give, on the condition `C`. -/
def RoundTrips (C : Fat → Ptr → Ptr → Nat → State → Prop) : Prop :=
  ∀ (fat : Fat) (dp ep : Ptr) (s : State) (l : List Nat) (off : Nat), fat.Wf → DirAt fat s dp l →
    Storable (s.dirents ep) → 32 < off → off % recordSz = 0 → off ≤ l.length * fat.bytsPerClus → C fat dp ep off s →
    ∃ s' l', (emake fat dp ep off).run s = .done () s' ∧ Chain fat s'.disk (l ++ l') ∧
      (∀ o, o < (l ++ l').length * fat.bytsPerClus →
        (o < off ∨ off + recordSz * (longCount (s.dirents ep).filename + 1) ≤ o) →
        chainByte fat s'.disk (l ++ l') o = if o < l.length * fat.bytsPerClus then chainByte fat s.disk l o else 0) ∧
      ∀ total, ∃ s'', (enext fat dp 0 off total).run s' = .done ⟨1, longCount (s.dirents ep).filename + 1,
        (s.dirents ep).filename, some ⟨(s.dirents ep).attr, (s.dirents ep).firstClus, (s.dirents ep).fileSize⟩⟩ s''

/-- The entry's slots have 32-bit offsets. -/
def Addressable (d : Dirent) (off : Nat) : Prop := off + recordSz * (longCount d.filename + 1) ≤ 2 ^ 32

instance (d : Dirent) (off : Nat) : Decidable (Addressable d off) := inferInstanceAs (Decidable (_ ≤ _))

/-- **An entry is read back as it was written.** -/
theorem round_trip {fat : Fat} {dp ep : Ptr} {s : State} {l : List Nat} {off : Nat} (w : fat.Wf) (h : DirAt fat s dp l)
    (hd : Storable (s.dirents ep)) (hoff : 32 < off) (halign : off % recordSz = 0) (hle : off ≤ l.length * fat.bytsPerClus)
    (haddr : Addressable (s.dirents ep) off) (hsteps : (emake fat dp ep off).Steps (Sound fat) s) :
    ∃ s' l', (emake fat dp ep off).run s = .done () s' ∧ Chain fat s'.disk (l ++ l') ∧
      (∀ o, o < (l ++ l').length * fat.bytsPerClus →
        (o < off ∨ off + recordSz * (longCount (s.dirents ep).filename + 1) ≤ o) →
        chainByte fat s'.disk (l ++ l') o = if o < l.length * fat.bytsPerClus then chainByte fat s.disk l o else 0) ∧
      ∀ total, ∃ s'', (enext fat dp 0 off total).run s' = .done ⟨1, longCount (s.dirents ep).filename + 1,
        (s.dirents ep).filename, some ⟨(s.dirents ep).attr, (s.dirents ep).firstClus, (s.dirents ep).fileSize⟩⟩ s'' := by
  obtain ⟨k, rfl⟩ : ∃ k, off = recordSz * k := ⟨off / recordSz, (Nat.mul_div_cancel' (Nat.dvd_of_mod_eq_zero halign)).symm⟩
  have hemake : emake fat dp ep (recordSz * k) = dirent dp >>= fun d =>
      if d.attr &&& attrDirectory = 0 then panic "emake: not dir"
      else if recordSz * k % recordSz ≠ 0 then panic "emake: not aligned"
      else if recordSz * k ≤ 32 then emakeDot fat dp ep (recordSz * k) else emakeFile fat dp ep (recordSz * k) := rfl
  rw [hemake] at hsteps
  have hfile := Prog.steps_bind_done hsteps (run_dirent ..)
  rw [if_neg h.attr, if_neg (by simp [halign]), if_neg (by omega)] at hfile
  obtain ⟨l₁, disk', c, j, hrun, hj, hs⟩ := run_emakeFile w h haddr hfile
  have hdir := h.spliced hs hj
  have hslots : (entryRecord (s.dirents ep) hd).slots = entrySlots (s.dirents ep) := rfl
  have hshow : Shows fat disk' l₁ k ((entryRecord (s.dirents ep) hd).slots.map some) := by
    rw [hslots]
    exact Spliced.shows (by simp [entrySlots]) (fun de hde o ho => entrySlots_zero _ hde ho)
      (by rwa [length_entrySlots])
  obtain ⟨new, rfl, -⟩ := hs.extends'
  refine ⟨{ s with disk := disk' }.setCursor dp c j, new, ?_, hs.chain, fun o ho hout => ?_, fun total => ?_⟩
  · rw [hemake, Prog.run_bind_done (run_dirent ..), if_neg h.attr, if_neg (by simp [halign]), if_neg (by omega), hrun]
  · rw [State.setCursor_disk, hs.byte o ho, if_neg (by omega)]
  · obtain ⟨c', j', -, hread⟩ := run_enext w hdir hshow (by
      rw [List.length_map, hslots, length_entrySlots, Nat.mul_add]
      exact haddr) (by simp) (scan_record (entryRecord (s.dirents ep) hd) total)
    refine ⟨({ s with disk := disk' }.setCursor dp c j).setCursor dp c' j', hread.trans ?_⟩
    rw [Record.report, entryRecord_name, entryRecord_info, Record.count]
    simp only [entryRecord, length_longSlots]

/-! ### The FAT entry that is misread -/

/-- A directory of one full cluster, its end mark from 2^31 on, and a file of a long name. -/
def fullDir : State where
  __ := oneClusDir 0xffffffff (List.replicate 16 (slotOf 0x41 0))
  dirents := Function.update (oneClusDir 0xffffffff (List.replicate 16 (slotOf 0x41 0))).dirents (.entry 0)
    { Dirent.zero with filename := List.replicate 196 0x61 }

theorem fullDir_dirAt : DirAt oneClus fullDir .root [2] :=
  have h : DirAt oneClus (oneClusDir 0xffffffff (List.replicate 16 (slotOf 0x41 0))) .root [2] :=
    dirAt_oneClus (by decide) (by decide) _
  ⟨h.attr, h.valid, h.chain, h.holds, h.nonempty⟩

theorem fullDir_storable : Storable (fullDir.dirents (.entry 0)) := by
  constructor <;> decide +kernel

/-- The same directory and a file of one letter. -/
def letterDir : State where
  __ := fullDir
  dirents := Function.update fullDir.dirents (.entry 0) { Dirent.zero with filename := [0x61] }

theorem letterDir_dirAt : DirAt oneClus letterDir .root [2] :=
  ⟨fullDir_dirAt.attr, fullDir_dirAt.valid, fullDir_dirAt.chain, fullDir_dirAt.holds, fullDir_dirAt.nonempty⟩

/-- In the cluster itself the end mark is not met. -/
theorem round_trip_letter : ∃ s' l', (emake oneClus .root (.entry 0) 64).run letterDir = .done () s' ∧
    Chain oneClus s'.disk ([2] ++ l') ∧
    (∀ o, o < ([2] ++ l').length * oneClus.bytsPerClus →
      (o < 64 ∨ 64 + recordSz * (longCount (letterDir.dirents (.entry 0)).filename + 1) ≤ o) →
      chainByte oneClus s'.disk ([2] ++ l') o =
        if o < [2].length * oneClus.bytsPerClus then chainByte oneClus letterDir.disk [2] o else 0) ∧
    ∀ total, ∃ s'', (enext oneClus .root 0 64 total).run s' = .done ⟨1, longCount (letterDir.dirents (.entry 0)).filename + 1,
      (letterDir.dirents (.entry 0)).filename, some ⟨(letterDir.dirents (.entry 0)).attr,
        (letterDir.dirents (.entry 0)).firstClus, (letterDir.dirents (.entry 0)).fileSize⟩⟩ s'' :=
  round_trip oneClus_wf letterDir_dirAt (by constructor <;> decide +kernel) (by decide) (by decide) (by decide) (by decide)
    (by decide +kernel)

/-- The records are laid over the FAT. -/
theorem not_roundTrips : ¬ RoundTrips fun fat dp ep off s =>
    Addressable (s.dirents ep) off ∧ (emake fat dp ep off).Steps (Allocs fat) s := by
  intro h
  obtain ⟨s', l', hmake, -, -, hread⟩ := h oneClus .root (.entry 0) fullDir [2] 512 oneClus_wf fullDir_dirAt
    fullDir_storable (by decide) (by decide) (by decide) ⟨by decide +kernel, by decide +kernel⟩
  obtain ⟨s'', hnext⟩ := hread 0
  have hvalue : (((emake oneClus .root (.entry 0) 512 >>= fun _ => enext oneClus .root 0 512 0).run fullDir).value?).isSome := by
    rw [Prog.run_bind_done hmake, hnext]
    rfl
  revert hvalue
  decide +kernel

end Farron
