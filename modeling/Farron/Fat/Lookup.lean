import Farron.Fat.Cache
import Farron.Fat.Records

/-! Looking a name up in a directory.

`dirlookup` takes a free slot of the cache and scans the directory into it
(`run_dirlookupScan`). What it is to find is the first record of the name in the layout
(`placed`), and for a name without a record, deleted slots that can take one
(`UsableGap`). It compares the name of a gap, which is blank, as well, and it never
stops at a gap: `lookupMeets_iff` says when this does no harm. -/
namespace Farron
open Resumption
variable {fat : Fat} {dp ep : Ptr} {pid : Nat}

/-! ### What is looked for -/

/-- The records, each with the number of its first slot. -/
def placed : Nat → List Item → List (Nat × Record)
  | _, [] => []
  | k, x :: items => (k + x.gap.length, x.record) :: placed (k + x.slots.length) items

/-- The slots of an entry with this name. -/
def slotsFor (name : CString) : Nat := longCount name + 1

namespace Layout
variable (L : Layout)

/-- The first record of the name. -/
def find (name : CString) : Option (Nat × Record) := (placed 0 L.items).find? fun p => p.2.name == name

/-- The number of slots before the free tail. -/
def taken : Nat := (used L.items).length + L.trailing.length

/-- The slot is deleted, or in the free tail. -/
def FreeSlot (k : Nat) : Prop := ∀ de, (used L.items ++ L.trailing)[k]? = some de → de 0 = emptyEntry

def FreeRun (k m : Nat) : Prop := ∀ j, k ≤ j → j < k + m → L.FreeSlot j

/-- From slot `k` on there is room for an entry of the name, before the free tail if there is
such room anywhere. -/
structure UsableGap (name : CString) (k : Nat) : Prop where
  free : L.FreeRun k (slotsFor name)
  early : (∃ k', k' + slotsFor name ≤ L.taken ∧ L.FreeRun k' (slotsFor name)) → k + slotsFor name ≤ L.taken

end Layout

/-- What `dirlookup` is to return, the cache not having the name. -/
def LookupMeets (fat : Fat) (pid n : Nat) (dp : Ptr) (name : CString) (L : Layout) (s : State) : Prop :=
  ∃ r s', (dirlookup fat pid n dp name).run s = .done r s' ∧
    match L.find name with
    | some (k, record) => ∃ e, r.1 = some e ∧ (s'.dirents e).off = recordSz * k ∧
        (s'.dirents e).attr = (readEntryInfo record.short).attr ∧
        (s'.dirents e).firstClus = (readEntryInfo record.short).firstClus ∧
        (s'.dirents e).fileSize = (readEntryInfo record.short).fileSize
    | none => r.1 = none ∧ ∃ k, r.2 = some (recordSz * k) ∧ L.UsableGap name k

/-- When it does: no gap is met in the search for the empty name, and where a name is not
found, no gap between the records is big enough for it, unless the deleted slots behind
the last record are. -/
structure LookupFits (L : Layout) (name : CString) : Prop where
  empty : name = [] → ∀ front x back, L.items = front ++ x :: back →
    (∀ y ∈ front, y.record.name ≠ name) → x.gap = []
  gaps : (∀ x ∈ L.items, x.record.name ≠ name) →
    slotsFor name ≤ L.trailing.length ∨ ∀ x ∈ L.items, x.gap.length < slotsFor name

/-! ### Reports and records -/

theorem strncmpEq_iff {n : Nat} {p q : CString} (h : q.length < n) : strncmpEq n p q ↔ q = p := by
  rw [strncmpEq, beq_iff_eq, List.take_of_length_le h.le]
  constructor
  · intro he
    have hlen := congrArg List.length he
    rw [List.length_take] at hlen
    rw [← he, List.take_of_length_le (by omega)]
  · intro he
    rw [← he, List.take_of_length_le h.le]

theorem Record.length_name_lt (r : Record) : r.name.length < fat32MaxFilename := by
  have htake : ∀ (l : CString), (l.takeWhile (· != 0)).length ≤ l.length := fun l =>
    (List.takeWhile_prefix _).length_le
  rw [Record.name]
  split_ifs
  · exact ((htake _).trans (length_shortString _)).trans_lt (by decide)
  · have hroom := r.room
    have hle := htake ((List.range (r.longs.length * charLongName)).map (spelled r.longs))
    rw [List.length_map, List.length_range] at hle
    unfold cstr fat32MaxFilename
    unfold charLongName at hle ⊢
    omega

theorem reports_name_lt {k : Nat} {items : List Item} {r : Nat × Next} (hr : r ∈ reports k items) :
    r.2.name.length < fat32MaxFilename := by
  induction items generalizing k with
  | nil => simp [reports] at hr
  | cons x items ih =>
    rcases List.mem_append.mp hr with hx | hrest
    · rcases List.mem_append.mp hx with hm | hm
      · split_ifs at hm
        · simp at hm
        · obtain rfl := List.mem_singleton.mp hm
          exact Nat.succ_pos _
      · obtain rfl := List.mem_singleton.mp hm
        exact x.record.length_name_lt
    · exact ih hrest

/-- Nothing else has the name: the first report with it is the first record's. -/
theorem find?_reports {name : CString} (k : Nat) (items : List Item)
    (hempty : name = [] → ∀ front x back, items = front ++ x :: back →
      (∀ y ∈ front, y.record.name ≠ name) → x.gap = []) :
    (reports k items).find? (fun r => r.2.name == name) =
      ((placed k items).find? fun p => p.2.name == name).map fun p => (p.1, p.2.report) := by
  induction items generalizing k with
  | nil => rfl
  | cons x items ih =>
    have hgap : (if x.gap = [] then [] else [(k, ⟨0, x.gap.length, [], none⟩)] : List (Nat × Next)).find?
        (fun r => r.2.name == name) = none := by
      split_ifs with he
      · rfl
      · have hne : ([] : CString) ≠ name := fun hn => he (hempty hn.symm [] x items rfl (by simp))
        simpa using hne
    rw [reports, Item.reports, List.append_assoc, List.find?_append, hgap, Option.none_or, placed,
      List.singleton_append]
    by_cases hx : x.record.name = name
    · rw [List.find?_cons_of_pos (by simpa [Record.report] using hx), List.find?_cons_of_pos (by simpa using hx)]
      rfl
    · rw [List.find?_cons_of_neg (by simpa [Record.report] using hx), List.find?_cons_of_neg (by simpa using hx)]
      refine ih _ fun hn front y back hy hfront => hempty hn (x :: front) y back (by rw [hy]; rfl) fun z hz => ?_
      rcases List.mem_cons.mp hz with rfl | hz
      · exact hx
      · exact hfront z hz

theorem exists_placed {k : Nat} {items : List Item} {p : Nat × Record} (hp : p ∈ placed k items) :
    ∃ x ∈ items, x.record = p.2 := by
  induction items generalizing k with
  | nil => simp [placed] at hp
  | cons x items ih =>
    rcases List.mem_cons.mp hp with rfl | hp
    · exact ⟨x, by simp, rfl⟩
    · obtain ⟨y, hy, he⟩ := ih hp
      exact ⟨y, List.mem_cons_of_mem _ hy, he⟩

theorem exists_place (k : Nat) {items : List Item} {x : Item} (hx : x ∈ items) :
    ∃ k', (k', x.record) ∈ placed k items := by
  induction items generalizing k with
  | nil => simp at hx
  | cons y items ih =>
    rcases List.mem_cons.mp hx with rfl | hx
    · exact ⟨k + x.gap.length, by simp [placed]⟩
    · obtain ⟨k', hk'⟩ := ih (k + y.slots.length) hx
      exact ⟨k', List.mem_cons_of_mem _ hk'⟩

theorem le_placed {k : Nat} {items : List Item} {p : Nat × Record} (hp : p ∈ placed k items) : k ≤ p.1 := by
  induction items generalizing k with
  | nil => simp [placed] at hp
  | cons x items ih =>
    rcases List.mem_cons.mp hp with rfl | hp
    · exact Nat.le_add_right ..
    · have := ih hp
      omega

theorem find?_gap_first (k : Nat) (x : Item) (items : List Item) (hgap : x.gap ≠ []) :
    ∃ r, (reports k (x :: items)).find? (fun r => r.2.name == []) = some r ∧
      ∀ p, (placed k (x :: items)).find? (fun p => p.2.name == []) = some p → r.1 ≠ p.1 := by
  refine ⟨(k, ⟨0, x.gap.length, [], none⟩), by simp [reports, Item.reports, hgap], fun p hp hk => ?_⟩
  have hle : k + x.gap.length ≤ p.1 := by
    rcases List.mem_cons.mp (List.mem_of_find?_eq_some hp) with rfl | hm
    · exact le_refl _
    · have := le_placed hm
      rw [x.length_slots] at this
      omega
  have hpos := List.length_pos_iff.mpr hgap
  simp only at hk
  omega

/-- A gap met in the search for the empty name is taken for the file. -/
theorem find?_gap (k : Nat) (front : List Item) (x : Item) (back : List Item)
    (hfront : ∀ y ∈ front, y.record.name ≠ []) (hgap : x.gap ≠ []) :
    ∃ r, (reports k (front ++ x :: back)).find? (fun r => r.2.name == []) = some r ∧
      ∀ p, (placed k (front ++ x :: back)).find? (fun p => p.2.name == []) = some p → r.1 ≠ p.1 := by
  induction front generalizing k with
  | nil => exact find?_gap_first k x back hgap
  | cons y front ih =>
    by_cases hyg : y.gap = []
    · have hy : y.record.name ≠ [] := hfront y (by simp)
      obtain ⟨r, hr, hne⟩ := ih (k + y.slots.length) fun z hz => hfront z (List.mem_cons_of_mem _ hz)
      refine ⟨r, ?_, ?_⟩
      · rw [List.cons_append, reports, Item.reports, if_pos hyg, List.nil_append, List.singleton_append,
          List.find?_cons_of_neg (by simpa [Record.report] using hy)]
        exact hr
      · rw [List.cons_append, placed, List.find?_cons_of_neg (by simpa using hy)]
        exact hne
    · exact find?_gap_first k y (front ++ x :: back) hyg

/-! ### Deleted slots in a row -/

/-- Every slot of a record is live. -/
theorem Record.live_slots (r : Record) {de : Bytes} (hde : de ∈ r.slots) : Farron.live de := by
  obtain ⟨longs, short, hroom, hlong, hlive, hattr⟩ := r
  rcases List.mem_append.mp hde with hl | hs
  · obtain ⟨i, hi⟩ := List.getElem?_of_mem hl
    obtain ⟨-, hde⟩ := hlong i de hi
    have hlt : i < longs.length := (List.getElem?_eq_some_iff.mp hi).1
    obtain ⟨⟨h1, h2, -⟩, ⟨h3, h4, -⟩⟩ := long_order (longs.length - i) (by omega) (by omega)
    rw [Farron.live, hde]
    by_cases h0 : i = 0
    · rw [if_pos h0]
      simp only [bne_iff_ne, ne_eq, Bool.and_eq_true]
      exact ⟨h3, h4⟩
    · rw [if_neg h0]
      simp only [UInt8.or_zero, bne_iff_ne, ne_eq, Bool.and_eq_true]
      exact ⟨h1, h2⟩
  · obtain rfl := List.mem_singleton.mp hs
    exact hlive

/-- A run of deleted slots lies in one gap, or behind the last record. -/
theorem run_in_gap {m : Nat} (hm : 0 < m) (items : List Item) (trailing : List Bytes) (k : Nat)
    (hk : k + m ≤ (Layout.used items).length + trailing.length)
    (hrun : ∀ j, k ≤ j → j < k + m → ∀ de, (Layout.used items ++ trailing)[j]? = some de → de 0 = emptyEntry) :
    (∃ x ∈ items, m ≤ x.gap.length) ∨ m ≤ trailing.length := by
  induction items generalizing k with
  | nil =>
    rw [Layout.used_nil, List.length_nil] at hk
    exact .inr (by omega)
  | cons x items ih =>
    have hlen := x.length_slots
    have hlive : ∀ j, x.gap.length ≤ j → j < x.slots.length → ¬ (k ≤ j ∧ j < k + m) := by
      intro j hj hj' hin
      have hget : (Layout.used (x :: items) ++ trailing)[j]? = x.record.slots[j - x.gap.length]? := by
        rw [Layout.used_cons, List.append_assoc, List.getElem?_append_left hj', Item.slots,
          List.getElem?_append_right hj]
      have hlt : j - x.gap.length < x.record.slots.length := by
        have : x.record.slots.length = x.record.count := by simp [Record.slots, Record.count]
        omega
      have hdel := hrun j hin.1 hin.2 _ (hget.trans (List.getElem?_eq_getElem hlt))
      have := x.record.live_slots (List.getElem_mem hlt)
      simp [Farron.live, hdel] at this
    have hpos : 0 < x.record.count := Nat.succ_pos _
    by_cases hin : k < x.gap.length
    · have := hlive x.gap.length (le_refl _) (by omega)
      exact .inl ⟨x, by simp, by omega⟩
    · have hge : x.slots.length ≤ k := by
        by_contra hlt
        exact hlive k (by omega) (by omega) ⟨le_refl _, by omega⟩
      obtain ⟨k', rfl⟩ := Nat.exists_eq_add_of_le hge
      rw [Layout.used_cons, List.length_append] at hk
      refine (ih k' (by omega) fun j hj hj' de hde => ?_).imp_left fun h => ?_
      · refine hrun (x.slots.length + j) (by omega) (by omega) de ?_
        rw [Layout.used_cons, List.append_assoc, List.getElem?_append_right (by omega), Nat.add_sub_cancel_left]
        exact hde
      · obtain ⟨y, hy, hle⟩ := h
        exact ⟨y, List.mem_cons_of_mem _ hy, hle⟩

/-- The gap of an item is a run of deleted slots. -/
theorem exists_run (items : List Item) (trailing : List Bytes) {x : Item} (hx : x ∈ items) :
    ∃ k, k + x.gap.length ≤ (Layout.used items).length ∧ ∀ j, k ≤ j → j < k + x.gap.length →
      ∀ de, (Layout.used items ++ trailing)[j]? = some de → de 0 = emptyEntry := by
  induction items with
  | nil => simp at hx
  | cons y items ih =>
    rcases List.mem_cons.mp hx with rfl | hx
    · refine ⟨0, by rw [Layout.used_cons, List.length_append, x.length_slots]; omega, fun j _ hj de hde => ?_⟩
      rw [Layout.used_cons, List.append_assoc, List.getElem?_append_left (by rw [x.length_slots]; omega), Item.slots,
        List.getElem?_append_left (by omega)] at hde
      exact x.deleted de (List.mem_of_getElem? hde)
    · obtain ⟨k, hk, hrun⟩ := ih hx
      refine ⟨y.slots.length + k, by rw [Layout.used_cons, List.length_append]; omega, fun j hj hj' de hde => ?_⟩
      rw [Layout.used_cons, List.append_assoc, List.getElem?_append_right (by omega)] at hde
      exact hrun (j - y.slots.length) (by omega) (by omega) de hde

/-- The end of the records is a good place unless a gap among them would have done. -/
theorem usableGap_end_iff (L : Layout) (name : CString) :
    L.UsableGap name (Layout.used L.items).length ↔
      slotsFor name ≤ L.trailing.length ∨ ∀ x ∈ L.items, x.gap.length < slotsFor name := by
  have hm : 0 < slotsFor name := Nat.succ_pos _
  have hfree : L.FreeRun (Layout.used L.items).length (slotsFor name) := by
    intro j hj _ de hde
    rw [List.getElem?_append_right hj] at hde
    exact L.deleted de (List.mem_of_getElem? hde)
  constructor
  · intro h
    by_cases hle : slotsFor name ≤ L.trailing.length
    · exact .inl hle
    refine .inr fun x hx => ?_
    by_contra hge
    obtain ⟨k, hk, hrun⟩ := exists_run L.items L.trailing hx
    have := h.early ⟨k, by unfold Layout.taken; omega, fun j hj hj' => hrun j hj (by omega)⟩
    unfold Layout.taken at this
    omega
  · intro h
    refine ⟨hfree, fun hex => ?_⟩
    obtain ⟨k, hk, hrun⟩ := hex
    have hle : slotsFor name ≤ L.trailing.length := by
      rcases h with h | h
      · exact h
      rcases run_in_gap hm L.items L.trailing k hk hrun with ⟨x, hx, hge⟩ | hle
      · exact absurd (h x hx) (by omega)
      · exact hle
    unfold Layout.taken
    omega

/-! ### The scan of `dirlookup` -/

theorem DirAt.setDirent_ne {s : State} {l : List Nat} (h : DirAt fat s dp l) (hne : ep ≠ dp) (f : Dirent → Dirent) :
    DirAt fat (s.setDirent ep f) dp l := by
  have hd : (s.setDirent ep f).dirents dp = s.dirents dp := s.setDirent_ne _ _ _ hne.symm
  exact ⟨by rw [hd]; exact h.attr, by rw [hd]; exact h.valid, h.chain, by rw [hd]; exact h.holds, h.nonempty⟩

/-- The slot has what a short-name record says. -/
def Dirent.Has (d : Dirent) (info : Info) : Prop :=
  d.attr = info.attr ∧ d.firstClus = info.firstClus ∧ d.fileSize = info.fileSize

theorem run_dirlookupLoop {disk : Disk} {l : List Nat} (name : CString) (hep : ep ≠ dp) (rs : List (Nat × Next))
    (k e n count : Nat) {s : State} (h : DirAt fat s dp l) (hdisk : s.disk = disk) (hvalid : (s.dirents ep).valid = 0)
    (hfollow : Follows k rs e) (he : recordSz * e < 2 ^ 32)
    (hreport : ∀ r ∈ rs, ReportsAt fat dp disk l r.1 (fun _ => r.2) ∧ r.2.type ≠ -1 ∧
      r.2.name.length < fat32MaxFilename)
    (hend : ReportsAt fat dp disk l e fun total => ⟨-1, total, [], none⟩) (hn : rs.length < n) :
    ∃ s', DirAt fat s' dp l ∧ (s'.dirents ep).valid = 0 ∧
      match rs.find? fun r => r.2.name == name with
      | some r => (dirlookupLoop fat dp ep name n (recordSz * k) count).run s = .done (true, recordSz * r.1) s' ∧
          ∀ info, r.2.info = some info → (s'.dirents ep).Has info ∧ (s'.dirents ep).curClus = info.firstClus ∧
            (s'.dirents ep).clusCnt = 0
      | none => (dirlookupLoop fat dp ep name n (recordSz * k) count).run s = .done (false, recordSz * e) s' := by
  induction rs generalizing k n count s with
  | nil =>
    obtain ⟨n, rfl⟩ : ∃ m, n = m + 1 := ⟨n - 1, by omega⟩
    obtain rfl : k = e := hfollow
    obtain ⟨c, j, hj, hrun⟩ := hend s count h hdisk
    refine ⟨(s.setCursor dp c j).setDirent ep fun d => { d with filename := [] }, (h.setCursor hj).setDirent_ne hep _, ?_, ?_⟩
    · simpa [State.setCursor_ne _ _ _ hep] using hvalid
    · show (dirlookupLoop fat dp ep name (n + 1) (recordSz * k) count).run s = _
      rw [dirlookupLoop, Prog.run_bind_done (run_dirent ..), hvalid, Prog.run_bind_done hrun, fillDirent,
        Prog.run_bind_done (run_assign ..), if_pos rfl]
      rfl
  | cons r rs ih =>
    obtain ⟨n, rfl⟩ : ∃ m, n = m + 1 := ⟨n - 1, by omega⟩
    obtain ⟨rfl, hrest⟩ := hfollow
    obtain ⟨hat, htype, hname⟩ := hreport r (by simp)
    obtain ⟨c, j, hj, hrun⟩ := hat s count h hdisk
    obtain ⟨f, hf⟩ : ∃ f : Dirent → Dirent, fillDirent ep r.2 = assign ep f ∧ (∀ d, (f d).valid = d.valid) ∧
        ∀ d info, r.2.info = some info → (f d).Has info ∧ (f d).curClus = info.firstClus ∧ (f d).clusCnt = 0 := by
      refine ⟨_, rfl, fun d => ?_, fun d info hi => ?_⟩
      · cases r.2.info <;> rfl
      · simp only [hi, and_true]
        exact ⟨rfl, rfl, rfl⟩
    obtain ⟨hfill, hfvalid, hfinfo⟩ := hf
    have hdir : DirAt fat ((s.setCursor dp c j).setDirent ep f) dp l := (h.setCursor hj).setDirent_ne hep f
    have hv : (((s.setCursor dp c j).setDirent ep f).dirents ep).valid = 0 := by
      rw [State.setDirent_same, hfvalid, State.setCursor_ne _ _ _ hep]
      exact hvalid
    have hstep : (dirlookupLoop fat dp ep name (n + 1) (recordSz * r.1) count).run s =
        (if strncmpEq fat32MaxFilename name r.2.name then return (true, recordSz * r.1)
          else dirlookupLoop fat dp ep name n (u32 (recordSz * r.1 + recordSz * r.2.count)) r.2.count : Fs _).run
          ((s.setCursor dp c j).setDirent ep f) := by
      rw [dirlookupLoop, Prog.run_bind_done (run_dirent ..), hvalid, Prog.run_bind_done hrun, hfill,
        Prog.run_bind_done (run_assign ..), if_neg htype]
    by_cases hm : r.2.name = name
    · rw [List.find?_cons_of_pos (by simpa using hm)]
      refine ⟨_, hdir, hv, ?_, fun info hi => ?_⟩
      · rw [hstep, if_pos ((strncmpEq_iff hname).mpr hm)]
        rfl
      · rw [State.setDirent_same]
        exact hfinfo _ info hi
    · rw [List.find?_cons_of_neg (by simpa using hm)]
      have hoff : u32 (recordSz * r.1 + recordSz * r.2.count) = recordSz * (r.1 + r.2.count) := by
        have hle := hrest.le
        unfold recordSz at he ⊢
        rw [u32_of_lt (by omega)]
        omega
      rw [hstep, if_neg (fun heq => hm ((strncmpEq_iff hname).mp heq)), hoff]
      exact ih (r.1 + r.2.count) n r.2.count hdir hdisk hv hrest
        (fun a ha => hreport a (List.mem_cons_of_mem _ ha)) (by simpa using hn)

theorem length_reports_le (k : Nat) (items : List Item) : (reports k items).length ≤ (Layout.used items).length := by
  induction items generalizing k with
  | nil => exact le_refl _
  | cons x items ih =>
    have hx : (x.reports k).length ≤ x.slots.length := by
      have hpos : 0 < x.record.count := Nat.succ_pos _
      rw [x.length_slots, Item.reports, List.length_append, List.length_singleton]
      split_ifs with hgap
      · rw [List.length_nil]
        omega
      · have := List.length_pos_iff.mpr hgap
        rw [List.length_singleton]
        omega
    rw [reports, List.length_append, Layout.used_cons, List.length_append]
    exact Nat.add_le_add hx (ih _)

section Lookup
variable {s : State} {l : List Nat} {L : Layout} {name : CString} (w : fat.Wf) (h : DirAt fat s dp l)
  (hon : L.On fat s.disk l) (hends : L.Ends fat s.disk l)
include w h hon hends

/-- The scan of `dirlookup` into the slot `i` of the cache. -/
theorem run_dirlookupScan (hep : ep ≠ dp) (hvalid : (s.dirents ep).valid = 0) {n : Nat} (hn : 0 < n) :
    ∃ s', match (reports 0 L.items).find? fun r => r.2.name == name with
      | some r => (dirlookupScan fat pid n dp ep name).run s = .done (some ep, none) s' ∧
          (s'.dirents ep).off = recordSz * r.1 ∧ ∀ info, r.2.info = some info → (s'.dirents ep).Has info
      | none => (dirlookupScan fat pid n dp ep name).run s =
          .done (none, some (recordSz * (Layout.used L.items).length)) s' := by
  obtain ⟨n, rfl⟩ : ∃ m, n = m + 1 := ⟨n - 1, by omega⟩
  obtain ⟨c₀, hc₀⟩ : ∃ c, l[0 / fat.bytsPerClus]? = some c := by
    rw [Nat.zero_div]
    exact ⟨_, List.getElem?_eq_getElem (List.length_pos_iff.mpr h.nonempty)⟩
  have hreloc := run_relocClus_within w (by decide) hc₀ false s h.chain h.holds
  have hlt := hends.1
  have hfew : (reports 0 L.items).length < maxSlots + 1 := by
    have hle := length_reports_le 0 L.items
    unfold recordSz at hlt
    unfold maxSlots
    omega
  have hfollow := reports_follow 0 L.items
  rw [Nat.zero_add] at hfollow
  have hv : ((s.setCursor dp c₀ (0 / fat.bytsPerClus)).dirents ep).valid = 0 := by
    rw [State.setCursor_ne _ _ _ hep]
    exact hvalid
  obtain ⟨s₁, -, hv₁, hloop⟩ := run_dirlookupLoop name hep (reports 0 L.items) 0 _ (maxSlots + 1) 0
    (h.setCursor hc₀) rfl hv hfollow (by unfold recordSz at hlt ⊢; omega)
    (fun r hr => ⟨L.reportsAt w hon hends dp hr, reports_type hr, reports_name_lt hr⟩)
    (L.endAt w hon hends dp) hfew
  cases hfind : (reports 0 L.items).find? fun r => r.2.name == name with
  | some r =>
    rw [hfind] at hloop
    obtain ⟨hrun, hinfo⟩ := hloop
    have hrun' : (dirlookupLoop fat dp ep name (maxSlots + 1) 0 0).run (s.setCursor dp c₀ (0 / fat.bytsPerClus)) =
        .done (true, recordSz * r.1) s₁ := hrun
    have hd : (((s₁.addRef dp 1).dirents ep)) = s₁.dirents ep := State.setDirent_ne _ _ _ _ hep
    refine ⟨((s₁.addRef dp 1).setDirent ep fun d => { d with parent := some dp, off := recordSz * r.1 }).setDirent
      ep fun d => { d with valid := 1 }, ?_, ?_, ?_⟩
    · rw [dirlookupScan, Prog.run_bind_done hreloc, Prog.run_bind_done hrun', if_pos rfl]
      rfl
    · rw [State.setDirent_same, State.setDirent_same]
    · intro info hi
      rw [State.setDirent_same, State.setDirent_same, hd]
      exact (hinfo info hi).1
  | none =>
    rw [hfind] at hloop
    have hrun' : (dirlookupLoop fat dp ep name (maxSlots + 1) 0 0).run (s.setCursor dp c₀ (0 / fat.bytsPerClus)) =
        .done (false, recordSz * (Layout.used L.items).length) s₁ := hloop
    have hlast : s₁.lastRef ep = false := by simp [State.lastRef, hv₁]
    have henter : s₁.eputEnter pid ep = s₁.addRef ep (-1) := by simp [State.eputEnter, hlast]
    have hput : (eput fat pid (n + 1) (some ep)).run s₁ = .done () (s₁.addRef ep (-1)) := by
      rw [eput, Prog.run_act_some, henter, hlast]
      rfl
    refine ⟨s₁.addRef ep (-1), ?_⟩
    show (dirlookupScan fat pid (n + 1) dp ep name).run s = _
    rw [dirlookupScan, Prog.run_bind_done hreloc, Prog.run_bind_done hrun', if_neg (by simp),
      Prog.run_bind_done hput]
    rfl

variable (pid) in
/-- `dirlookup` of a name that the cache does not have. -/
theorem run_dirlookup_miss (hdot : name ≠ [charDot]) (hdotdot : name ≠ [charDot, charDot])
    (hmiss : s.egetHit dp (some name) = none) {i : Slot} (hfree : s.egetFree = some i) (hne : Ptr.entry i ≠ dp)
    {n : Nat} (hn : 0 < n) :
    ∃ s', match (reports 0 L.items).find? fun r => r.2.name == name with
      | some r => (dirlookup fat pid n dp name).run s = .done (some (.entry i), none) s' ∧
          (s'.dirents (.entry i)).off = recordSz * r.1 ∧ ∀ info, r.2.info = some info → (s'.dirents (.entry i)).Has info
      | none => (dirlookup fat pid n dp name).run s =
          .done (none, some (recordSz * (Layout.used L.items).length)) s' := by
  have hget : (eget dp (some name)).run s = .done (.entry i) (s.egetClear i) := by
    rw [eget, Prog.run_act_some, State.eget, hmiss, hfree]
    rfl
  have hd : (s.egetClear i).dirents dp = s.dirents dp := by
    simp only [State.egetClear, State.setDirent_ne _ _ _ _ hne.symm]
  have hdir : DirAt fat (s.egetClear i) dp l :=
    ⟨by rw [hd]; exact h.attr, by rw [hd]; exact h.valid, h.chain, by rw [hd]; exact h.holds, h.nonempty⟩
  have hvalid : ((s.egetClear i).dirents (.entry i)).valid = 0 := by
    rw [State.egetClear]
    simp only [State.setDirent_same]
  have hstep : (dirlookup fat pid n dp name).run s = (dirlookupScan fat pid n dp (.entry i) name).run (s.egetClear i) := by
    rw [dirlookup, Prog.run_bind_done (run_dirent ..), if_neg h.attr,
      if_neg fun he => hdot ((strncmpEq_iff (by decide)).mp he).symm,
      if_neg fun he => hdotdot ((strncmpEq_iff (by decide)).mp he).symm, if_neg (by simp [h.valid]),
      Prog.run_bind_done hget, Prog.run_bind_done (run_dirent ..), if_neg (by simp [hvalid])]
  rw [hstep]
  exact run_dirlookupScan w hdir hon hends hne hvalid hn

section Meets
variable (hdot : name ≠ [charDot]) (hdotdot : name ≠ [charDot, charDot])
  (hmiss : s.egetHit dp (some name) = none) (href : ∀ i, dp = .entry i → (s.dirents dp).ref ≠ 0) {n : Nat} (hn : 0 < n)
include hdot hdotdot hmiss href hn

omit w hon hends hn href in
/-- Without a free slot in the cache the lookup ends in a panic. -/
theorem LookupMeets.free (hm : LookupMeets fat pid n dp name L s) : s.egetFree ≠ none := by
  intro hfree
  have hstop : (dirlookup fat pid n dp name).run s = .stopped (.panic "eget: insufficient ecache") := by
    rw [dirlookup, Prog.run_bind_done (run_dirent ..), if_neg h.attr,
      if_neg fun he => hdot ((strncmpEq_iff (by decide)).mp he).symm,
      if_neg fun he => hdotdot ((strncmpEq_iff (by decide)).mp he).symm, if_neg (by simp [h.valid]),
      Prog.run_bind, eget, Prog.run_act_some, hmiss, hfree]
    rfl
  obtain ⟨r, s', hrun, -⟩ := hm
  rw [hstop] at hrun
  cases hrun

omit w hon hends h hdot hdotdot hmiss hn in
theorem egetFree_ne {i : Slot} (hfree : s.egetFree = some i) : Ptr.entry i ≠ dp := by
  intro he
  have hzero : (s.dirents (.entry i)).ref = 0 := by simpa using List.find?_some hfree
  exact href i he.symm (by rw [← he, hzero])

theorem LookupMeets.fits (hm : LookupMeets fat pid n dp name L s) : LookupFits L name := by
  obtain ⟨i, hfree⟩ := Option.ne_none_iff_exists'.mp (hm.free h hdot hdotdot hmiss)
  obtain ⟨s', hrun⟩ := run_dirlookup_miss pid w h hon hends hdot hdotdot hmiss hfree
    (egetFree_ne href hfree) hn
  obtain ⟨r', s'', hrun', hmeets⟩ := hm
  unfold Layout.find at hmeets
  by_cases hempty : name = [] → ∀ front x back, L.items = front ++ x :: back →
      (∀ y ∈ front, y.record.name ≠ name) → x.gap = []
  · refine ⟨hempty, fun hnone => ?_⟩
    rw [find?_reports 0 L.items hempty] at hrun
    cases hfind : (placed 0 L.items).find? fun p => p.2.name == name with
    | some p =>
      obtain ⟨x, hx, hname⟩ := exists_placed (List.mem_of_find?_eq_some hfind)
      have hfound : p.2.name = name := by simpa using List.find?_some hfind
      exact absurd (by rw [hname]; exact hfound) (hnone x hx)
    | none =>
      rw [hfind] at hrun hmeets
      obtain ⟨-, k, hk, husable⟩ := hmeets
      rw [hrun] at hrun'
      cases hrun'
      have hk' : (Layout.used L.items).length = k := by
        have := Option.some.inj hk
        unfold recordSz at this
        omega
      rwa [← hk', usableGap_end_iff] at husable
  · -- a gap is found under the blank name
    push Not at hempty
    obtain ⟨rfl, front, x, back, hitems, hfront, hgap⟩ := hempty
    obtain ⟨r, hr, hplace⟩ := find?_gap 0 front x back hfront hgap
    rw [← hitems] at hr hplace
    rw [hr] at hrun
    obtain ⟨hrun, hoff, -⟩ := hrun
    rw [hrun] at hrun'
    cases hrun'
    cases hfind : (placed 0 L.items).find? fun p => p.2.name == [] with
    | some p =>
      rw [hfind] at hmeets
      obtain ⟨e, he, hoff', -⟩ := hmeets
      cases he
      rw [hoff] at hoff'
      unfold recordSz at hoff'
      exact absurd (by omega) (hplace p hfind)
    | none =>
      rw [hfind] at hmeets
      cases hmeets.1

theorem LookupFits.meets (hf : s.egetFree ≠ none) (hfits : LookupFits L name) :
    LookupMeets fat pid n dp name L s := by
  obtain ⟨i, hfree⟩ := Option.ne_none_iff_exists'.mp hf
  obtain ⟨s', hrun⟩ := run_dirlookup_miss pid w h hon hends hdot hdotdot hmiss hfree
    (egetFree_ne href hfree) hn
  rw [find?_reports 0 L.items hfits.empty] at hrun
  unfold LookupMeets Layout.find
  cases hfind : (placed 0 L.items).find? fun p => p.2.name == name with
  | some p =>
    rw [hfind] at hrun
    obtain ⟨hrun, hoff, hinfo⟩ := hrun
    have hhas := hinfo _ rfl
    exact ⟨_, s', hrun, .entry i, rfl, hoff, hhas.1, hhas.2.1, hhas.2.2⟩
  | none =>
    rw [hfind] at hrun
    have hall : ∀ x ∈ L.items, x.record.name ≠ name := by
      intro x hx hname
      obtain ⟨k, hk⟩ := exists_place 0 hx
      exact List.find?_eq_none.mp hfind _ hk (by simpa using hname)
    exact ⟨_, s', hrun, rfl, _, rfl, (usableGap_end_iff L name).mpr (hfits.gaps hall)⟩

/-- **`dirlookup` finds exactly the records, and room for the rest, when it does no harm that it
takes gaps for entries with a blank name.** -/
theorem lookupMeets_iff : LookupMeets fat pid n dp name L s ↔ s.egetFree ≠ none ∧ LookupFits L name :=
  ⟨fun hm => ⟨hm.free h hdot hdotdot hmiss, hm.fits w h hon hends hdot hdotdot hmiss href hn⟩,
    fun hf => hf.2.meets w h hon hends hdot hdotdot hmiss href hn hf.1⟩

end Meets
end Lookup

/-- The record is found. -/
theorem lookupMeets_letter : LookupMeets oneClus 0 1 .root [0x41] gapLayout gapDir := by
  refine (lookupMeets_iff oneClus_wf (dirAt_oneClus (by decide) (by decide) _) gapLayout_on gapLayout_ends (by decide)
    (by decide) (by decide) (by simp) (by decide)).mpr ⟨by decide, by simp, fun hnone => ?_⟩
  exact absurd rfl (hnone _ (List.mem_singleton.mpr rfl))

/-- For another letter the two deleted slots would do, but are passed over; and the empty name
is found in them. -/
theorem not_lookupMeets :
    ¬ LookupMeets oneClus 0 1 .root [0x42] gapLayout gapDir ∧ ¬ LookupMeets oneClus 0 1 .root [] gapLayout gapDir := by
  have hdir : DirAt oneClus gapDir .root [2] := dirAt_oneClus (by decide) (by decide) _
  constructor
  · intro hm
    have hfits := hm.fits oneClus_wf hdir gapLayout_on gapLayout_ends (by decide) (by decide) (by decide) (by simp)
      (by decide)
    have hother : ∀ x ∈ gapLayout.items, x.record.name ≠ [0x42] := by
      intro x hx
      obtain rfl := List.mem_singleton.mp hx
      decide
    rcases hfits.gaps hother with htrailing | hgaps
    · exact absurd htrailing (by decide)
    · exact absurd (hgaps _ (List.mem_singleton.mpr rfl)) (by decide)
  · intro hm
    have hfits := hm.fits oneClus_wf hdir gapLayout_on gapLayout_ends (by decide) (by decide) (by decide) (by simp)
      (by decide)
    exact absurd (hfits.empty rfl [] _ [] rfl (by simp)) (by decide)

end Farron
