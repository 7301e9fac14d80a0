import Farron.Fat.Volume
import Farron.Chains.Linked

/-! Cluster chains and the cursor of an entry.

`Chain` is a well-formed chain on a disk, `Holds` says that a dirent's clusters are
a given chain and its remembered cluster lies on it. `reloc_clus` then moves the
cursor to the cluster of the offset, walking forward or from the start
(`run_relocClus_within`), and with `alloc` lets the chain grow by free clusters
until it has that cluster (`run_relocClus_grow`, `Grown`). -/
namespace Farron
open Resumption Chains
variable {fat : Fat}

structure Chain (fat : Fat) (disk : Disk) (l : List Nat) : Prop where
  linked : Linked (fatEntry fat disk) (fat32Eoc ≤ ·) l
  inRange : ∀ c ∈ l, fat.InRange c
  nodup : l.Nodup

/-- The dirent's clusters are the chain `l`, and its cursor is on it. -/
structure Holds (d : Dirent) (l : List Nat) : Prop where
  first : d.firstClus = l.headD 0
  cursor : l ≠ [] → l[d.clusCnt]? = some d.curClus

theorem Chain.nil (disk : Disk) : Chain fat disk [] :=
  ⟨.nil, fun _ h => by simp at h, List.nodup_nil⟩

theorem Chain.get_inRange {disk : Disk} {l : List Nat} (h : Chain fat disk l) {i c : Nat}
    (hc : l[i]? = some c) : fat.InRange c :=
  h.inRange c (List.mem_of_getElem? hc)

theorem Chain.congr {disk disk' : Disk} {l : List Nat} (h : Chain fat disk l)
    (hs : ∀ c ∈ l, fatEntry fat disk' c = fatEntry fat disk c) : Chain fat disk' l :=
  ⟨h.linked.congr hs, h.inRange, h.nodup⟩

/-- A cluster of a chain is not free. -/
theorem Chain.entry_ne_zero {disk : Disk} {l : List Nat} (h : Chain fat disk l) {c : Nat}
    (hc : c ∈ l) : fatEntry fat disk c ≠ 0 := by
  obtain ⟨i, hi⟩ := List.getElem?_of_mem hc
  cases hd : l[i + 1]? with
  | none =>
    have := h.linked.last i c hi hd
    unfold fat32Eoc at this
    omega
  | some d =>
    have := (h.get_inRange hd).1
    rw [h.linked.step i c d hi hd]
    omega

namespace State

/-- The cursor of `e` is at cluster `c`, the `k`-th of its chain. -/
def setCursor (s : State) (e : Ptr) (c k : Nat) : State :=
  s.setDirent e fun d => { d with curClus := c, clusCnt := k }

theorem setDirent_setDirent (s : State) (e : Ptr) (f g : Dirent → Dirent) :
    (s.setDirent e f).setDirent e g = s.setDirent e (g ∘ f) := by
  unfold setDirent
  simp only [Function.update_self, Function.update_idem, Function.comp_apply]

theorem setDirent_congr (s : State) (e : Ptr) {f g : Dirent → Dirent}
    (h : f (s.dirents e) = g (s.dirents e)) : s.setDirent e f = s.setDirent e g := by
  unfold setDirent
  rw [h]

theorem setDirent_eq_self (s : State) (e : Ptr) (f : Dirent → Dirent)
    (h : f (s.dirents e) = s.dirents e) : s.setDirent e f = s := by
  unfold setDirent
  rw [h, Function.update_eq_self]

theorem setCursor_setCursor (s : State) (e : Ptr) (c k c' k' : Nat) :
    (s.setCursor e c k).setCursor e c' k' = s.setCursor e c' k' := setDirent_setDirent ..

/-- The cursor goes on to the next cluster of the chain. -/
theorem setDirent_advance (s : State) (e : Ptr) (c : Nat) (h : (s.dirents e).clusCnt + 1 < 2 ^ 32) :
    s.setDirent e (fun d => { d with curClus := c, clusCnt := u32 (d.clusCnt + 1) }) =
      s.setCursor e c ((s.dirents e).clusCnt + 1) :=
  s.setDirent_congr e (by rw [u32_of_lt h])

theorem setCursor_self (s : State) (e : Ptr) {c k : Nat} (hc : (s.dirents e).curClus = c)
    (hk : (s.dirents e).clusCnt = k) : s.setCursor e c k = s := by
  subst hc hk
  exact setDirent_eq_self s e _ rfl

@[simp] theorem setCursor_disk (s : State) (e : Ptr) (c k : Nat) : (s.setCursor e c k).disk = s.disk := rfl

@[simp] theorem setCursor_same (s : State) (e : Ptr) (c k : Nat) :
    (s.setCursor e c k).dirents e = { s.dirents e with curClus := c, clusCnt := k } :=
  setDirent_same ..

theorem setCursor_ne (s : State) {e e' : Ptr} (c k : Nat) (h : e' ≠ e) :
    (s.setCursor e c k).dirents e' = s.dirents e' := setDirent_ne _ _ _ _ h

end State

/-! ### Inside the chain -/

section Within
variable (w : fat.Wf) {e : Ptr} {l : List Nat}
include w

theorem Chain.entry_small {disk : Disk} (h : Chain fat disk l) {j c d : Nat} (hc : l[j]? = some c)
    (hd : l[j + 1]? = some d) : fatEntry fat disk c = d ∧ d < fat32Eoc :=
  ⟨h.linked.step j c d hc hd, w.inRange_lt (h.get_inRange hd)⟩

/-- Forward to cluster `k` of the chain. -/
theorem run_relocForward_within {k c : Nat} (hk : l[k]? = some c) (hk32 : k < 2 ^ 32) (alloc : Bool)
    (n : Nat) (s : State) (hchain : Chain fat s.disk l)
    (hcur : l[(s.dirents e).clusCnt]? = some (s.dirents e).curClus)
    (hle : (s.dirents e).clusCnt ≤ k) (hn : k - (s.dirents e).clusCnt ≤ n) :
    (relocForward fat e k alloc n).run s = .done true (s.setCursor e c k) := by
  induction n generalizing s with
  | zero =>
    have hj : (s.dirents e).clusCnt = k := by omega
    rw [hj, hk] at hcur
    rw [s.setCursor_self e (Option.some.inj hcur).symm hj]
    rfl
  | succ n ih =>
    simp only [relocForward]
    rw [Prog.run_bind_done (run_dirent ..)]
    by_cases hj : k > (s.dirents e).clusCnt
    · obtain ⟨d, hd⟩ : ∃ d, l[(s.dirents e).clusCnt + 1]? = some d := by
        have := (List.getElem?_eq_some_iff.mp hk).1
        exact ⟨_, List.getElem?_eq_getElem (by omega)⟩
      obtain ⟨hv, hsmall⟩ := hchain.entry_small w hcur hd
      have hint : ¬ int32 d ≥ fat32Eoc := by
        rw [int32_of_lt (by unfold fat32Eoc at hsmall; omega)]
        omega
      rw [if_pos hj, Prog.run_bind_done (run_readFatAt w s _ (hchain.get_inRange hcur).2), hv,
        if_neg hint, Prog.run_bind_done (run_assign ..), s.setDirent_advance e d (by omega),
        ih (s.setCursor e d ((s.dirents e).clusCnt + 1)) hchain (by simpa using hd) (by simp; omega)
          (by simp; omega), State.setCursor_setCursor]
    · have hj : (s.dirents e).clusCnt = k := by omega
      rw [if_neg (by omega)]
      rw [hj, hk] at hcur
      rw [s.setCursor_self e (Option.some.inj hcur).symm hj]
      rfl

theorem run_relocRewind {k c : Nat} (hk : l[k]? = some c) (hk32 : k < 2 ^ 32) (n : Nat) (s : State)
    (hchain : Chain fat s.disk l) (hcur : l[(s.dirents e).clusCnt]? = some (s.dirents e).curClus)
    (hle : (s.dirents e).clusCnt ≤ k) (hn : k - (s.dirents e).clusCnt ≤ n) :
    (relocRewind fat e k n).run s = .done () (s.setCursor e c k) := by
  induction n generalizing s with
  | zero =>
    have hj : (s.dirents e).clusCnt = k := by omega
    rw [hj, hk] at hcur
    rw [s.setCursor_self e (Option.some.inj hcur).symm hj]
    rfl
  | succ n ih =>
    simp only [relocRewind]
    rw [Prog.run_bind_done (run_dirent ..)]
    by_cases hj : (s.dirents e).clusCnt < k
    · obtain ⟨d, hd⟩ : ∃ d, l[(s.dirents e).clusCnt + 1]? = some d := by
        have := (List.getElem?_eq_some_iff.mp hk).1
        exact ⟨_, List.getElem?_eq_getElem (by omega)⟩
      obtain ⟨hv, hsmall⟩ := hchain.entry_small w hcur hd
      rw [if_pos hj, readFat, Prog.run_bind_done (run_readFatAt w s _ (hchain.get_inRange hcur).2), hv,
        if_neg (by omega), Prog.run_bind_done (run_assign ..), s.setDirent_advance e d (by omega),
        ih (s.setCursor e d ((s.dirents e).clusCnt + 1)) hchain (by simpa using hd) (by simp; omega)
          (by simp; omega), State.setCursor_setCursor]
    · have hj : (s.dirents e).clusCnt = k := by omega
      rw [if_neg (by omega)]
      rw [hj, hk] at hcur
      rw [s.setCursor_self e (Option.some.inj hcur).symm hj]
      rfl

omit w in
/-- Beyond the cursor's own cluster nothing happens going forward. -/
theorem run_relocForward_beyond {k : Nat} (alloc : Bool) (n : Nat) (s : State)
    (h : k < (s.dirents e).clusCnt) : (relocForward fat e k alloc n).run s = .done true s := by
  cases n with
  | zero => rfl
  | succ n =>
    simp only [relocForward]
    rw [Prog.run_bind_done (run_dirent ..), if_neg (by omega)]
    rfl

theorem run_relocBack {k c : Nat} (hk : l[k]? = some c) (hk32 : k < 2 ^ 32) (s : State)
    (hchain : Chain fat s.disk l) (hholds : Holds (s.dirents e) l)
    (h : k < (s.dirents e).clusCnt) : (relocBack fat e k).run s = .done () (s.setCursor e c k) := by
  obtain ⟨c₀, rest, rfl⟩ : ∃ c₀ rest, l = c₀ :: rest :=
    List.exists_cons_of_ne_nil (by rintro rfl; simp at hk)
  have hfirst : (s.dirents e).firstClus = c₀ := hholds.first
  have hset : s.setDirent e (fun x => { x with curClus := x.firstClus, clusCnt := 0 }) =
      s.setCursor e c₀ 0 := s.setDirent_congr e (by rw [hfirst])
  simp only [relocBack]
  rw [Prog.run_bind_done (run_dirent ..), if_pos h, Prog.run_bind_done (run_assign ..), hset,
    run_relocRewind w hk hk32 k (s.setCursor e c₀ 0) hchain (by simp) (by simp) (by simp), State.setCursor_setCursor]

omit w in
theorem run_relocBack_ahead {k : Nat} (s : State) (h : (s.dirents e).clusCnt ≤ k) :
    (relocBack fat e k).run s = .done () s := by
  simp only [relocBack]
  rw [Prog.run_bind_done (run_dirent ..), if_neg (by omega)]
  rfl

/-- **Inside the chain `reloc_clus` moves the cursor to the offset's cluster** and
changes nothing else. -/
theorem run_relocClus_within {off c : Nat} (hoff : off < 2 ^ 32)
    (hk : l[off / fat.bytsPerClus]? = some c) (alloc : Bool) (s : State)
    (hchain : Chain fat s.disk l) (hholds : Holds (s.dirents e) l) :
    (relocClus fat e off alloc).run s =
      .done (off % fat.bytsPerClus : Nat) (s.setCursor e c (off / fat.bytsPerClus)) := by
  have hne : l ≠ [] := by rintro rfl; simp at hk
  have hcur := hholds.cursor hne
  have hk32 : off / fat.bytsPerClus < 2 ^ 32 := (Nat.div_le_self ..).trans_lt hoff
  simp only [relocClus]
  by_cases hle : (s.dirents e).clusCnt ≤ off / fat.bytsPerClus
  · rw [Prog.run_bind_done (run_relocForward_within w hk hk32 alloc _ s hchain hcur hle (by omega)),
      if_pos rfl, Prog.run_bind_done (run_relocBack_ahead _ (by simp))]
    rfl
  · rw [Prog.run_bind_done (run_relocForward_beyond alloc _ s (by omega)), if_pos rfl,
      Prog.run_bind_done (run_relocBack w hk hk32 s hchain hholds (by omega))]
    rfl

end Within

/-! ### Behind the end -/

/-- `reloc_clus` knows the chain's end mark for one: as an `int` it is not negative. -/
def EndsRead (fat : Fat) (disk : Disk) (l : List Nat) : Prop :=
  ∀ c, l.getLast? = some c → fatEntry fat disk c < 2 ^ 31

section Behind
variable (w : fat.Wf) {e : Ptr} {l : List Nat}
include w

theorem run_relocForward_behind {k c₀ : Nat} (hk : l.length ≤ k) (hk32 : k < 2 ^ 32) (n : Nat)
    (s : State) (hchain : Chain fat s.disk l) (hends : EndsRead fat s.disk l)
    (hfirst : (s.dirents e).firstClus = c₀)
    (hcur : l[(s.dirents e).clusCnt]? = some (s.dirents e).curClus)
    (hn : k - (s.dirents e).clusCnt ≤ n) :
    (relocForward fat e k false n).run s = .done false (s.setCursor e c₀ 0) := by
  induction n generalizing s with
  | zero =>
    have := (List.getElem?_eq_some_iff.mp hcur).1
    omega
  | succ n ih =>
    have hlt := (List.getElem?_eq_some_iff.mp hcur).1
    have hcr := hchain.get_inRange hcur
    simp only [relocForward]
    rw [Prog.run_bind_done (run_dirent ..), if_pos (by omega), Prog.run_bind_done (run_readFatAt w s _ hcr.2)]
    cases hd : l[(s.dirents e).clusCnt + 1]? with
    | some d =>
      obtain ⟨hv, hsmall⟩ := hchain.entry_small w hcur hd
      have hint : ¬ int32 d ≥ fat32Eoc := by
        rw [int32_of_lt (by unfold fat32Eoc at hsmall; omega)]
        omega
      rw [hv, if_neg hint, Prog.run_bind_done (run_assign ..), s.setDirent_advance e d (by omega),
        ih (s.setCursor e d ((s.dirents e).clusCnt + 1)) hchain hends (by simpa using hfirst) (by simpa using hd)
          (by simp; omega), State.setCursor_setCursor]
    | none =>
      have hlast : l.getLast? = some (s.dirents e).curClus := by
        have hnone := List.getElem?_eq_none_iff.mp hd
        rw [List.getLast?_eq_getElem?, ← hcur]
        congr 1
        omega
      have hint : int32 (fatEntry fat s.disk (s.dirents e).curClus) ≥ fat32Eoc := by
        have hv := hchain.linked.last _ _ hcur hd
        rw [int32_of_lt (hends _ hlast)]
        omega
      rw [if_pos hint, if_neg (by simp), Prog.run_bind_done (run_assign ..),
        s.setDirent_congr e (g := fun d => { d with curClus := c₀, clusCnt := 0 }) (by rw [hfirst])]
      rfl

/-- **Behind the end of the chain `reloc_clus` gives up**, its cursor back at the start. -/
theorem run_relocClus_behind {off : Nat} (hoff : off < 2 ^ 32) (hlen : l.length * fat.bytsPerClus ≤ off)
    (hne : l ≠ []) (s : State) (hchain : Chain fat s.disk l) (hholds : Holds (s.dirents e) l)
    (hends : EndsRead fat s.disk l) :
    ∃ c, l[0]? = some c ∧ (relocClus fat e off false).run s = .done (-1) (s.setCursor e c 0) := by
  obtain ⟨c, rest, rfl⟩ := List.exists_cons_of_ne_nil hne
  have hk : (c :: rest).length ≤ off / fat.bytsPerClus := (Nat.le_div_iff_mul_le w.bytsPerClus_pos).mpr hlen
  have hk32 : off / fat.bytsPerClus < 2 ^ 32 := (Nat.div_le_self ..).trans_lt hoff
  refine ⟨c, rfl, ?_⟩
  simp only [relocClus]
  rw [Prog.run_bind_done (run_relocForward_behind w hk hk32 _ s hchain hends hholds.first
    (hholds.cursor hne) (Nat.sub_le ..))]
  rfl

end Behind

/-! ### Growing -/

/-- The chain `l` has become `l'` by clusters that were free, each zeroed; the rest of
the volume is as it was. -/
structure Grown (fat : Fat) (l l' : List Nat) (disk disk' : Disk) : Prop where
  extends' : ∃ new, l' = l ++ new ∧ ∀ c ∈ new, fat.InRange c ∧ fatEntry fat disk c = 0
  chain : Chain fat disk' l'
  entry : ∀ c, c ≤ fat.dataClusCnt + 1 → c ∉ l' → fatEntry fat disk' c = fatEntry fat disk c
  byte : ∀ c o, fat.InRange c → o < fat.bytsPerClus →
    clusByte fat disk' c o = if c ∈ l' ∧ c ∉ l then 0 else clusByte fat disk c o

theorem Grown.refl {disk : Disk} {l : List Nat} (h : Chain fat disk l) : Grown fat l l disk disk where
  extends' := ⟨[], by simp, fun _ h => by simp at h⟩
  chain := h
  entry _ _ _ := rfl
  byte c o _ _ := by rw [if_neg (fun h => h.2 h.1)]

theorem Grown.subset {disk disk' : Disk} {l l' : List Nat} (h : Grown fat l l' disk disk') {c : Nat}
    (hc : c ∈ l) : c ∈ l' := by
  obtain ⟨new, rfl, _⟩ := h.extends'
  exact List.mem_append_left _ hc

theorem Grown.trans {disk disk' disk'' : Disk} {l l' l'' : List Nat}
    (h : Grown fat l l' disk disk') (h' : Grown fat l' l'' disk' disk'') : Grown fat l l'' disk disk'' where
  extends' := by
    obtain ⟨new, hl', hnew⟩ := h.extends'
    obtain ⟨new', hl'', hnew'⟩ := h'.extends'
    refine ⟨new ++ new', by rw [hl'', hl', List.append_assoc], fun c hc => ?_⟩
    rcases List.mem_append.mp hc with hc | hc
    · exact hnew c hc
    · obtain ⟨hr, hz⟩ := hnew' c hc
      refine ⟨hr, ?_⟩
      rw [← hz]
      refine (h.entry c hr.2 fun hm => ?_).symm
      have hnd := hl'' ▸ h'.chain.nodup
      exact List.disjoint_of_nodup_append hnd hm hc
  chain := h'.chain
  entry c hc hn := by
    rw [h'.entry c hc hn, h.entry c hc (fun hm => hn (h'.subset hm))]
  byte c o hc ho := by
    rw [h'.byte c o hc ho, h.byte c o hc ho]
    by_cases h1 : c ∈ l
    · have h2 := h.subset h1
      rw [if_neg (fun hh => hh.2 h2), if_neg (fun hh => hh.2 h1), if_neg (fun hh => hh.2 h1)]
    · by_cases h2 : c ∈ l'
      · rw [if_neg (fun hh => hh.2 h2), if_pos ⟨h2, h1⟩, if_pos ⟨h'.subset h2, h1⟩]
      · by_cases h3 : c ∈ l''
        · rw [if_pos ⟨h3, h2⟩, if_pos ⟨h3, h1⟩]
        · rw [if_neg (fun hh => h3 hh.1), if_neg (fun hh => h2 hh.1), if_neg (fun hh => h3 hh.1)]

section Grow
variable (w : fat.Wf) {e : Ptr}
include w

omit w in
/-- A new chain of one cluster. -/
theorem Allocated.grown {c : Nat} {disk disk' : Disk} (h : Allocated fat c disk disk') :
    Grown fat [] [c] disk disk' where
  extends' := ⟨[c], rfl, fun d hd => by
    obtain rfl : d = c := by simpa using hd
    exact ⟨h.inRange, h.free⟩⟩
  chain := by
    refine ⟨.single ?_, fun d hd => ?_, List.nodup_singleton c⟩
    · rw [h.entry c h.inRange.2, if_pos rfl]
      omega
    · obtain rfl : d = c := by simpa using hd
      exact h.inRange
  entry d hd hn := by rw [h.entry d hd, if_neg (by simpa using hn)]
  byte d o hd ho := by
    rw [h.byte d o hd ho]
    by_cases hdc : d = c
    · rw [if_pos hdc, if_pos (by simp [hdc])]
    · rw [if_neg hdc, if_neg (by simp [hdc])]

/-- A cluster allocated and linked behind the last one of the chain. -/
theorem Allocated.linked {l : List Nat} {i c d : Nat} {disk disk' : Disk} (hl : Chain fat disk l)
    (h : Allocated fat d disk disk') (hc : l[i]? = some c) (hi : i + 1 = l.length) :
    Grown fat l (l ++ [d]) disk (setFat fat c d disk') := by
  have hd : d ∉ l := fun hm => hl.entry_ne_zero hm h.free
  have hcr := hl.get_inRange hc
  have hd32 : d < 2 ^ 32 := by have := w.clusters_lt; have := h.inRange.2; omega
  have hentry : fatEntry fat (setFat fat c d disk') = Function.update (fatEntry fat disk') c d := by
    funext c'
    rw [setFat, fatEntry_fatWrite disk' hd32]
    by_cases hcc : c' = c
    · rw [if_pos hcc, hcc, Function.update_self]
    · rw [if_neg hcc, Function.update_of_ne hcc]
  have hlinked : Linked (fatEntry fat disk') (fat32Eoc ≤ ·) l := by
    refine hl.linked.congr fun c' hc' => ?_
    rw [h.entry c' (hl.inRange c' hc').2, if_neg (by rintro rfl; exact hd hc')]
  constructor
  · refine ⟨[d], rfl, fun c' hc' => ?_⟩
    obtain rfl : c' = d := by simpa using hc'
    exact ⟨h.inRange, h.free⟩
  · refine ⟨?_, fun c' hc' => ?_, ?_⟩
    · rw [hentry]
      refine hlinked.append hl.nodup hc hi hd ?_
      rw [h.entry d h.inRange.2, if_pos rfl]
      omega
    · rcases List.mem_append.mp hc' with hm | hm
      · exact hl.inRange c' hm
      · obtain rfl : c' = d := by simpa using hm
        exact h.inRange
    · rw [List.nodup_append]
      refine ⟨hl.nodup, List.nodup_singleton d, fun a ha b hb => ?_⟩
      obtain rfl : b = d := by simpa using hb
      rintro rfl
      exact hd ha
  · intro c' hc' hn
    simp only [List.mem_append, List.mem_singleton, not_or] at hn
    rw [hentry, Function.update_of_ne (by rintro rfl; exact hn.1 (List.mem_of_getElem? hc)),
      h.entry c' hc', if_neg hn.2]
  · intro c' o hc' ho
    rw [setFat, clusByte_fatWrite w disk' hcr.2 hc' ho, h.byte c' o hc' ho]
    by_cases hcd : c' = d
    · subst hcd
      rw [if_pos rfl, if_pos ⟨by simp, hd⟩]
    · rw [if_neg hcd, if_neg]
      rintro ⟨h1, h2⟩
      simp only [List.mem_append, List.mem_singleton, hcd, or_false] at h1
      exact h2 h1

omit w in
theorem endsRead_concat {disk : Disk} {l : List Nat} {d : Nat} (h : fatEntry fat disk d < 2 ^ 31) :
    EndsRead fat disk (l ++ [d]) := by
  intro c hc
  rw [List.getLast?_concat] at hc
  obtain rfl := Option.some.inj hc
  exact h

/-- Forward to cluster `k`, allocating what is missing. -/
theorem run_relocForward_grow {k : Nat} (hk32 : k < 2 ^ 32) (n : Nat) (s : State) {l : List Nat}
    (hchain : Chain fat s.disk l) (hends : l.length ≤ k → EndsRead fat s.disk l)
    (hcur : l[(s.dirents e).clusCnt]? = some (s.dirents e).curClus)
    (hle : (s.dirents e).clusCnt ≤ k) (hn : k - (s.dirents e).clusCnt ≤ n)
    (hsteps : (relocForward fat e k true n).Steps (Allocs fat) s) :
    ∃ l' disk' c, (relocForward fat e k true n).run s =
        .done true ({ s with disk := disk' }.setCursor e c k) ∧
      Grown fat l l' s.disk disk' ∧ (EndsRead fat s.disk l → EndsRead fat disk' l') ∧ l'[k]? = some c ∧
      l'.length = max l.length (k + 1) := by
  induction n generalizing s l with
  | zero =>
    have hj : (s.dirents e).clusCnt = k := by omega
    rw [hj] at hcur
    refine ⟨l, s.disk, _, ?_, .refl hchain, id, hcur, ?_⟩
    · rw [State.setCursor_self { s with disk := s.disk } e rfl hj]
      rfl
    · have := (List.getElem?_eq_some_iff.mp hcur).1
      omega
  | succ n ih =>
    by_cases hj : k > (s.dirents e).clusCnt
    · have hcr := hchain.get_inRange hcur
      simp only [relocForward] at hsteps ⊢
      rw [Prog.run_bind_done (run_dirent ..), if_pos hj,
        Prog.run_bind_done (run_readFatAt w s _ hcr.2)]
      replace hsteps := Prog.steps_bind_done hsteps (run_dirent ..)
      rw [if_pos hj] at hsteps
      replace hsteps := Prog.steps_bind_done hsteps (run_readFatAt w s _ hcr.2)
      cases hd : l[(s.dirents e).clusCnt + 1]? with
      | some d =>
        obtain ⟨hv, hsmall⟩ := hchain.entry_small w hcur hd
        have hint : ¬ int32 d ≥ fat32Eoc := by
          rw [int32_of_lt (by unfold fat32Eoc at hsmall; omega)]
          omega
        rw [hv, if_neg hint] at hsteps
        rw [hv, if_neg hint, Prog.run_bind_done (run_assign ..),
          s.setDirent_advance e d (by omega)]
        replace hsteps := Prog.steps_bind_done hsteps (run_assign ..)
        rw [s.setDirent_advance e d (by omega)] at hsteps
        obtain ⟨l', disk', c, hrun, hg, hends', hc, hlen⟩ :=
          ih (s.setCursor e d ((s.dirents e).clusCnt + 1)) hchain hends (by simpa using hd)
            (by simp; omega) (by simp; omega) hsteps
        refine ⟨l', disk', c, ?_, hg, hends', hc, hlen⟩
        rw [hrun]
        exact congrArg _ (State.setCursor_setCursor { s with disk := disk' } ..)
      | none =>
        have hv := hchain.linked.last _ _ hcur hd
        have hlen : (s.dirents e).clusCnt + 1 = l.length := by
          have h1 := (List.getElem?_eq_some_iff.mp hcur).1
          have h2 := List.getElem?_eq_none_iff.mp hd
          omega
        have hlast : l.getLast? = some (s.dirents e).curClus := by
          rw [List.getLast?_eq_getElem?, ← hlen, Nat.add_sub_cancel, hcur]
        have hint : int32 (fatEntry fat s.disk (s.dirents e).curClus) ≥ fat32Eoc := by
          rw [int32_of_lt (hends (by omega) _ hlast)]
          omega
        rw [if_pos hint, if_pos trivial] at hsteps ⊢
        obtain ⟨new, disk₁, halloc, ha⟩ := run_allocClus w s (Prog.steps_bind_left hsteps)
        have hg := ha.linked w hchain hcur hlen
        rw [Prog.run_bind_done halloc, Prog.run_bind_done (run_writeFat w _ new hcr.2),
          Prog.run_bind_done (run_assign ..)]
        replace hsteps := Prog.steps_bind_done hsteps halloc
        replace hsteps := Prog.steps_bind_done hsteps (run_writeFat w _ new hcr.2)
        replace hsteps := Prog.steps_bind_done hsteps (run_assign ..)
        rw [State.setDirent_advance _ e new (by simp; omega)] at hsteps ⊢
        -- the new cluster's entry is the mark that alloc_clus has written
        have hmark : fatEntry fat (setFat fat (s.dirents e).curClus new disk₁) new < 2 ^ 31 := by
          have hnew : new ∉ l := fun hm => hchain.entry_ne_zero hm ha.free
          rw [setFat, fatEntry_fatWrite _ (by have := w.clusters_lt; have := ha.inRange.2; omega),
            if_neg (by rintro rfl; exact hnew (List.mem_of_getElem? hcur)), ha.entry _ ha.inRange.2, if_pos rfl]
          decide
        have hends₁ : EndsRead fat (setFat fat (s.dirents e).curClus new disk₁) (l ++ [new]) := endsRead_concat hmark
        obtain ⟨l', disk', c, hrun, hg', hends', hc, hlen'⟩ :=
          ih (State.setCursor { s with disk := setFat fat (s.dirents e).curClus new disk₁ } e new
            ((s.dirents e).clusCnt + 1)) hg.chain (fun _ => hends₁) (by simp [hlen]) (by simp; omega) (by simp; omega) hsteps
        refine ⟨l', disk', c, ?_, hg.trans hg', fun _ => hends' hends₁, hc, ?_⟩
        · rw [hrun]
          exact congrArg _ (State.setCursor_setCursor { s with disk := disk' } ..)
        · rw [hlen']
          simp only [List.length_append, List.length_singleton]
          omega
    · have hj : (s.dirents e).clusCnt = k := by omega
      simp only [relocForward]
      rw [Prog.run_bind_done (run_dirent ..), if_neg (by omega)]
      rw [hj] at hcur
      refine ⟨l, s.disk, _, ?_, .refl hchain, id, hcur, ?_⟩
      · rw [State.setCursor_self { s with disk := s.disk } e rfl hj]
        rfl
      · have := (List.getElem?_eq_some_iff.mp hcur).1
        omega

/-- Where the loop goes behind the end it has read the end mark. -/
theorem endsRead_of_steps {k : Nat} (hk32 : k < 2 ^ 32) (n : Nat) (s : State) {l : List Nat}
    (hchain : Chain fat s.disk l) (hcur : l[(s.dirents e).clusCnt]? = some (s.dirents e).curClus)
    (hk : l.length ≤ k) (hn : k - (s.dirents e).clusCnt ≤ n)
    (hsteps : (relocForward fat e k true n).Steps (Unsigned fat) s) : EndsRead fat s.disk l := by
  induction n generalizing s with
  | zero =>
    have := (List.getElem?_eq_some_iff.mp hcur).1
    omega
  | succ n ih =>
    have hlt := (List.getElem?_eq_some_iff.mp hcur).1
    have hcr := hchain.get_inRange hcur
    simp only [relocForward] at hsteps
    replace hsteps := Prog.steps_bind_done hsteps (run_dirent ..)
    rw [if_pos (by omega)] at hsteps
    have hread : fatEntry fat s.disk (s.dirents e).curClus < 2 ^ 31 :=
      steps_readFatAt w s hcr.2 (Prog.steps_bind_left hsteps)
    cases hd : l[(s.dirents e).clusCnt + 1]? with
    | some d =>
      obtain ⟨hv, hsmall⟩ := hchain.entry_small w hcur hd
      replace hsteps := Prog.steps_bind_done hsteps (run_readFatAt w s _ hcr.2)
      rw [int32_of_lt hread, hv, if_neg (by omega)] at hsteps
      replace hsteps := Prog.steps_bind_done hsteps (run_assign ..)
      rw [s.setDirent_advance e d (by omega)] at hsteps
      exact ih (s.setCursor e d ((s.dirents e).clusCnt + 1)) hchain (by simpa using hd) (by simp; omega) hsteps
    | none =>
      have hnone := List.getElem?_eq_none_iff.mp hd
      intro c hc
      rw [List.getLast?_eq_getElem?, show l.length - 1 = (s.dirents e).clusCnt by omega, hcur] at hc
      rwa [← Option.some.inj hc]

/-- **With `alloc`, `reloc_clus` reaches the cluster of every offset**, letting the
chain grow by exactly the clusters missing. -/
theorem run_relocClus_grow {off : Nat} (hoff : off < 2 ^ 32) (s : State) {l : List Nat}
    (hne : l ≠ []) (hchain : Chain fat s.disk l) (hholds : Holds (s.dirents e) l)
    (hends : l.length ≤ off / fat.bytsPerClus → EndsRead fat s.disk l)
    (hsteps : (relocClus fat e off true).Steps (Allocs fat) s) :
    ∃ l' disk' c, (relocClus fat e off true).run s = .done (off % fat.bytsPerClus : Nat)
        ({ s with disk := disk' }.setCursor e c (off / fat.bytsPerClus)) ∧
      Grown fat l l' s.disk disk' ∧ (EndsRead fat s.disk l → EndsRead fat disk' l') ∧
      l'[off / fat.bytsPerClus]? = some c ∧ l'.length = max l.length (off / fat.bytsPerClus + 1) := by
  have hk32 : off / fat.bytsPerClus < 2 ^ 32 := (Nat.div_le_self ..).trans_lt hoff
  have hcur := hholds.cursor hne
  by_cases hle : (s.dirents e).clusCnt ≤ off / fat.bytsPerClus
  · obtain ⟨l', disk', c, hrun, hg, hends', hc, hlen⟩ := run_relocForward_grow w hk32 _ s hchain hends hcur hle
      (by omega) (Prog.steps_bind_left hsteps)
    refine ⟨l', disk', c, ?_, hg, hends', hc, hlen⟩
    simp only [relocClus]
    rw [Prog.run_bind_done hrun, if_pos rfl, Prog.run_bind_done (run_relocBack_ahead _ (by simp))]
    rfl
  · have hlt := (List.getElem?_eq_some_iff.mp hcur).1
    obtain ⟨c, hk⟩ : ∃ c, l[off / fat.bytsPerClus]? = some c :=
      ⟨_, List.getElem?_eq_getElem (by omega)⟩
    refine ⟨l, s.disk, c, run_relocClus_within w hoff hk true s hchain hholds, .refl hchain, id, hk, ?_⟩
    omega

/-- The same where it is known of the steps that the end mark reads as one. -/
theorem run_relocClus_alloc {off : Nat} (hoff : off < 2 ^ 32) (s : State) {l : List Nat}
    (hne : l ≠ []) (hchain : Chain fat s.disk l) (hholds : Holds (s.dirents e) l)
    (hsteps : (relocClus fat e off true).Steps (Sound fat) s) :
    ∃ l' disk' c, (relocClus fat e off true).run s = .done (off % fat.bytsPerClus : Nat)
        ({ s with disk := disk' }.setCursor e c (off / fat.bytsPerClus)) ∧
      Grown fat l l' s.disk disk' ∧ l'[off / fat.bytsPerClus]? = some c ∧
      l'.length = max l.length (off / fat.bytsPerClus + 1) := by
  have hk32 : off / fat.bytsPerClus < 2 ^ 32 := (Nat.div_le_self ..).trans_lt hoff
  have hends : l.length ≤ off / fat.bytsPerClus → EndsRead fat s.disk l := fun hk =>
    endsRead_of_steps w hk32 _ s hchain (hholds.cursor hne) hk (Nat.sub_le ..)
      ((Prog.steps_bind_left hsteps).mono fun _ _ h => h.2)
  obtain ⟨l', disk', c, hrun, hg, -, hc, hlen⟩ :=
    run_relocClus_grow w hoff s hne hchain hholds hends (hsteps.mono fun _ _ h => h.1)
  exact ⟨l', disk', c, hrun, hg, hc, hlen⟩

end Grow

end Farron
