import Farron.Memory.Calls
import Farron.Memory.Exec
import Farron.Memory.Spending

/-! The address space that `exec` makes.

It is made next to the old one. The root of the new kernel page table is a copy of the old
root without the user's entries, so the two share what maps the kernel stack and are put apart
again when the old one is freed (`Table.join`). What has been made so far is a `Building`: two page
tables in step, next to everything that the processes own. Whatever fails, all of it is given back
(`Building.ends_bad`). -/
namespace Farron.Memory
open Resumption Radix

variable {board : Board} {m₀ m m' m'' : Ram} {R : Multiset (Page × Use)} {E : Stop → Prop} {f g h : Nat → Option Pte}
  {im : Image} {u k old : Page} {us : List Pte} {guard : Option Nat} {va len sz newsz : Nat} {src : Nat → Byte}

/-! ### A shared stack -/

theorem within_low {S S' : Finset (Fin 512)} {l : Nat} (hl : l ≤ 1) : within S l = within S' l := by
  unfold within
  rw [if_neg (by omega), if_neg (by omega)]

/-- The user's part of one kernel page table and the stack's part of another one. -/
theorem Table.join (hk : Table usrIdx g m k) (ho : Table procIdx h m old) (hrow : m.heap k stackIdx = m.heap old stackIdx)
    (hg : ∀ v, px (v * pgsize) 2 ∈ usrIdx → v < 2 ^ 27 → f v = g v)
    (hh : ∀ v, px (v * pgsize) 2 = stackIdx → v < 2 ^ 27 → f v = h v) : Table procIdx f m k := by
  refine ⟨?_, fun v hv hS => ?_⟩
  · rw [shape_succ]
    intro i hi
    rcases Finset.mem_insert.mp (show i ∈ insert stackIdx usrIdx from hi) with rfl | hi
    · rw [hrow]
      exact (shape_succ 1 old).mp ho.shape stackIdx (Finset.mem_insert_self _ _)
    · have hfit := (shape_succ 1 k).mp hk.shape i hi
      cases he : m.heap k i with
      | empty => trivial
      | leaf e => exact absurd hfit (by rw [he]; exact id)
      | table q =>
        rw [he] at hfit
        exact Shape.indices hfit fun l hl => (within_low hl).subset
  · rcases Finset.mem_insert.mp (show px (v * pgsize) 2 ∈ insert stackIdx usrIdx from hS) with hi | hi
    · rw [hh v hi hv, ← ho.maps v hv hS]
      simp only [find, hi, hrow]
    · rw [hg v hi hv, ← hk.maps v hv hi]

theorem stackPages_eq (hrow : m.heap k stackIdx = m.heap old stackIdx) : stackPages m k = stackPages m old := by
  unfold stackPages
  rw [hrow]

theorem px_stack {v : Nat} (hv : px (v * pgsize) 2 = stackIdx) : ¬ v < 2 ^ 19 := by
  intro hlt
  have hmem := usrIdx_of_lt hlt
  rw [hv] at hmem
  exact absurd hmem (by decide)

theorem px_user {v : Nat} (hv : px (v * pgsize) 2 ∈ usrIdx) (hlt : v < 2 ^ 27) : v < 2 ^ 19 := by
  have hval := px_val v 2 (Nat.le_refl 2)
  have hcase : px (v * pgsize) 2 = 0 ∨ px (v * pgsize) 2 = 1 := by
    unfold usrIdx at hv
    simpa using hv
  have hsmall : (px (v * pgsize) 2 : Nat) ≤ 1 := by
    rcases hcase with h | h <;> rw [h] <;> decide
  rw [hval] at hsmall
  norm_num at hsmall
  omega

/-! ### The root -/

/-- The copy of a root, without the user's entries. -/
theorem ends_copyRoot {x : Use} (hm : Stocked board m₀) (hb : Books board m₀ ((k, .table) ::ₘ R) m) (hold : (old, x) ∈ R) :
    (do movePage k old; clearEntries k (indices.take (px maxuva 2))).Ends (Sound board) E m fun _ m' =>
      Holds board m₀ usrIdx (fun _ => none) k R m' ∧ Same R m m' ∧ m'.free = m.free ∧ ∀ j, j ∉ usrIdx → m'.heap k j = m'.heap old j := by
  have hne : old ≠ k := hb.ne hm hold
  obtain ⟨hb₁, hs₁⟩ := hb.write hm (m.byte old)
  obtain ⟨hb₂, hs₂⟩ := hb₁.write hm (putWord64 (8 * (0 : Fin 512)) 0 ((m.write k (m.byte old)).byte k))
  obtain ⟨hb₃, hs₃⟩ := hb₂.write hm (putWord64 (8 * (1 : Fin 512)) 0 (((m.write k (m.byte old)).setPte k 0 0).byte k))
  have hs : Same R m (((m.write k (m.byte old)).setPte k 0 0).setPte k 1 0) := (hs₁.trans hs₂).trans hs₃
  have hroot : (m.write k (m.byte old)).heap k = m.heap old := by
    funext i
    simp only [Ram.heap, Ram.pte, Ram.write_byte]
  have hheap : (((m.write k (m.byte old)).setPte k 0 0).setPte k 1 0).heap k =
      Function.update (Function.update (m.heap old) 0 .empty) 1 .empty := by
    rw [Ram.heap_setPte _ k 1 (by decide), Ram.heap_setPte _ k 0 (by decide), hroot, entry_zero]
  rw [usr_indices]
  apply Prog.Ends.change trivial
  apply Prog.Ends.change trivial
  apply Prog.Ends.change_last trivial
  have hrow : ∀ i ∈ usrIdx, (((m.write k (m.byte old)).setPte k 0 0).setPte k 1 0).heap k i = .empty := by
    intro i hi
    rw [hheap]
    have hcase : i = 0 ∨ i = 1 := by
      unfold usrIdx at hi
      simpa using hi
    rcases hcase with rfl | rfl
    · rw [Function.update_of_ne (by decide), Function.update_self]
    · rw [Function.update_self]
  refine ⟨(Holds.blank hrow hb₃).1, hs, rfl, fun j hj => ?_⟩
  have hj0 : j ≠ 0 := fun he => hj (by rw [he]; decide)
  have hj1 : j ≠ 1 := fun he => hj (by rw [he]; decide)
  rw [hheap, Function.update_of_ne hj1, Function.update_of_ne hj0, hs.heap hold]

/-! ### What has been made so far -/

/-- The new address space has the user pages `us`; of the old one, and of all other processes, nothing
has changed. -/
structure Building (board : Board) (m₀ : Ram) (R : Multiset (Page × Use)) (im : Image) (u k : Page) (guard : Option Nat)
    (us : List Pte) (m : Ram) : Prop where
  pair : Pair board m₀ usrIdx (usrMap board im.tf us) (kernMap none us) u k (userPages us + R) m
  row : ∀ j, j ∉ usrIdx → m.heap k j = m.heap im.kpt j
  old : Fit board m₀ m im
  owned : im.owned m ≤ R
  flags : ∀ (v : Nat) (e : Pte), us[v]? = some e → e.flags = if guard = some v then 15 else 31

namespace Building
variable {us' : List Pte} {guard' : Option Nat}

/-- A step that leaves alone what is owned. -/
theorem next (h : Building board m₀ R im u k guard us m)
    (hpair : Pair board m₀ usrIdx (usrMap board im.tf us') (kernMap none us') u k (userPages us' + R) m')
    (hedit : Edit usrIdx k R m m') (hflags : ∀ (v : Nat) (e : Pte), us'[v]? = some e → e.flags = if guard' = some v then 15 else 31) :
    Building board m₀ R im u k guard' us' m' := by
  obtain ⟨hfit, howned⟩ := h.old.same (hedit.same.mono h.owned)
  have hroot : (im.kpt, Use.table) ∈ R := Multiset.mem_of_le h.owned
    (Multiset.mem_add.mpr (.inr (Multiset.mem_add.mpr (.inl (mem_tabs.mpr ⟨root_mem_pagesOf _ _ _, rfl⟩)))))
  refine ⟨hpair, fun j hj => ?_, hfit, ?_, hflags⟩
  · rw [hedit.row j hj, h.row j hj, hedit.same.heap hroot]
  · rw [howned]
    exact h.owned

theorem userFlags (h : Building board m₀ R im u k guard us m) {e : Pte} (he : e ∈ us) : UserFlags e := by
  obtain ⟨v, hv⟩ := List.mem_iff_getElem?.mp he
  have hf := h.flags v e hv
  by_cases hg : guard = some v
  · rw [if_pos hg] at hf
    exact .inr hf
  · rw [if_neg hg] at hf
    exact .inl hf

theorem few (hm : Stocked board m₀) (h : Building board m₀ R im u k guard us m) : us.length ≤ 0x5E0 := by
  refine (h.pair.books.congr ?_ : Books board m₀ (userPages us +
    (tabs (pagesOf m Finset.univ u) + (tabs (pagesOf m usrIdx k) + R))) m).length_le hm
  abel

/-- The new kernel page table, with the stack. -/
theorem kern (h : Building board m₀ R im u k guard us m) :
    Table procIdx (kernMap (some im.stack) us) m k ∧ pagesOf m procIdx k = stackPages m im.kpt + pagesOf m usrIdx k := by
  have hrow := h.row stackIdx (by decide)
  refine ⟨h.pair.kern.join h.old.kern hrow (fun v hv hlt => ?_) (fun v hv hlt => ?_), ?_⟩
  · have hsmall := px_user hv hlt
    simp only [kernMap, if_pos hsmall]
  · have hbig := px_stack hv
    simp only [kernMap, if_neg hbig]
  · rw [pagesOf_procIdx, stackPages_eq hrow]

/-- No user page is another page of the new address space, or an old one. -/
theorem distinct (hm : Stocked board m₀) (h : Building board m₀ R im u k guard us m) :
    (us.map Pte.page).Nodup ∧ ∀ e ∈ us, ∀ x ∈ tabs (pagesOf m Finset.univ u) + (tabs (pagesOf m usrIdx k) + R), e.page ≠ x.1 := by
  have hb : Books board m₀ (userPages us + (tabs (pagesOf m Finset.univ u) + (tabs (pagesOf m usrIdx k) + R))) m := by
    refine h.pair.books.congr ?_
    abel
  exact hb.distinct hm

theorem mapping (hm : Stocked board m₀) (h : Building board m₀ R im u k guard us m) : Mapping m u k us := by
  obtain ⟨hn, hapart⟩ := h.distinct hm
  obtain ⟨hkern, hpages⟩ := h.kern
  have hfew := h.few hm
  refine ⟨⟨_, h.pair.user, fun v hv => ?_⟩, ⟨_, hkern, fun v hv => ?_⟩, by omega, fun e he => h.userFlags he, hn,
    fun e he => ⟨fun hmem => ?_, fun hmem => ?_⟩⟩
  · rw [usrMap, if_pos hv]
  · rw [kernMap, if_pos hv]
  · exact hapart e he (e.page, .table) (Multiset.mem_add.mpr (.inl (mem_tabs.mpr ⟨hmem, rfl⟩))) rfl
  · rw [hpages, Multiset.mem_add] at hmem
    rcases hmem with hmem | hmem
    · refine hapart e he (e.page, .table) (Multiset.mem_add.mpr (.inr (Multiset.mem_add.mpr (.inr ?_)))) rfl
      apply Multiset.mem_of_le h.owned
      refine Multiset.mem_add.mpr (.inr (Multiset.mem_add.mpr (.inl (mem_tabs.mpr ⟨?_, rfl⟩))))
      rw [pagesOf_procIdx]
      exact Multiset.mem_add.mpr (.inl hmem)
    · exact hapart e he (e.page, .table) (Multiset.mem_add.mpr (.inr (Multiset.mem_add.mpr (.inl (mem_tabs.mpr ⟨hmem, rfl⟩))))) rfl

/-- Bytes are written to user pages. -/
theorem wrote (hm : Stocked board m₀) (h : Building board m₀ R im u k guard us m) (hw : Wrote us va len src m m') :
    Building board m₀ R im u k guard us m' ∧ Same R m m' := by
  obtain ⟨-, hapart⟩ := h.distinct hm
  have hs : Same (tabs (pagesOf m Finset.univ u) + (tabs (pagesOf m usrIdx k) + R)) m m' :=
    ⟨fun x hx => hw.other x.1 fun e he => hapart e he x hx, hw.kern⟩
  have hboot : ∀ p ∈ bootPages board m₀, m'.byte p = m.byte p := by
    intro p hp
    refine hw.other p fun e he heq => h.pair.books.not_boot hm ?_ (heq ▸ hp)
    refine Multiset.mem_add.mpr (.inl (Multiset.mem_map_of_mem Prod.fst (a := (e.page, Use.user)) ?_))
    exact Multiset.mem_add.mpr (.inr (Multiset.mem_add.mpr (.inr (Multiset.mem_add.mpr (.inl (mem_userPages he))))))
  have hu := hs.left
  have hk := hs.right.left
  refine ⟨h.next ⟨h.pair.user.same hu, h.pair.kern.same hk, ?_⟩ ⟨hs.right.right, fun j _ => ?_⟩ h.flags, hs.right.right⟩
  · rw [hu.pagesOf, hk.pagesOf]
    refine ⟨?_, ?_, fun p hp => (hboot p hp).trans (h.pair.books.boot p hp)⟩
    · rw [hw.free]
      exact h.pair.books.pages
    · rw [hw.use]
      exact h.pair.books.used
  · rw [hk.tabs_heap (root_mem_pagesOf _ _ _)]

/-! ### Everything is given back -/

/-- The root of the kernel page table, and what hangs on its user's entries. -/
theorem ends_free_kern (hm : Stocked board m₀) (h : Holds board m₀ usrIdx g k R m) :
    (kvmfree board k false).Ends (Sound board) E m fun _ m' => Books board m₀ R m' ∧ Same R m m' :=
  ends_kvmfree_false hm (teardown_allows hm) (by decide) h.table.shape h.books

theorem ends_bad (hm : Booted board m₀) (h : Building board m₀ R im u k guard us m) (hsz : npages sz = us.length) :
    (execBad board (some u) k sz).Ends (Sound board) E m fun r m' => r = none ∧ Books board m₀ R m' ∧ Same R m m' := by
  have hfew := h.few hm.stocked
  have huser := h.pair.onUser
  have hR : tabs (pagesOf m usrIdx k) + (userPages us + R) = userPages us + (tabs (pagesOf m usrIdx k) + R) := by abel
  unfold execBad
  apply (ends_procFreepagetable hm (sound_allows hm.stocked) trivial trivial hsz (by omega) (huser.rest hR)).bind
  intro _ m₁ h₁
  obtain ⟨hb₁, hs₁⟩ := h₁
  have hk := hs₁.left
  have hkern : Holds board m₀ usrIdx (kernMap none us) k R m₁ := by
    refine ⟨h.pair.kern.same hk, ?_⟩
    rw [hk.pagesOf]
    exact hb₁
  apply (ends_free_kern hm.stocked hkern).bind
  exact fun _ m₂ h₂ => ⟨rfl, h₂.1, hs₁.right.trans h₂.2⟩

/-! ### More pages -/

theorem userByte_append {new : List Pte} (hold : ∀ e ∈ us, m'.byte e.page = m.byte e.page)
    (hnew : ∀ e ∈ new, m'.byte e.page = fun _ => 0) : userByte m' (us ++ new) = userByte m us := by
  funext va
  unfold userByte
  by_cases hlt : va / pgsize < us.length
  · rw [List.getElem?_append_left hlt, List.getElem?_eq_getElem hlt]
    show m'.byte us[va / pgsize].page _ = _
    rw [hold _ (List.getElem_mem hlt)]
    rfl
  · rw [List.getElem?_append_right (by omega), List.getElem?_eq_none (by omega : us.length ≤ va / pgsize)]
    cases he : new[va / pgsize - us.length]? with
    | none => rfl
    | some e =>
      show m'.byte e.page _ = _
      rw [hnew e (List.mem_of_getElem? he)]
      rfl

/-- `uvmalloc` grows the address space by zeroed pages, or changes nothing. -/
theorem ends_grow (hm : Stocked board m₀) (h : Building board m₀ R im u k none us m) (hsz : npages sz = us.length) :
    (uvmalloc board u k sz newsz).Ends (Sound board) E m fun r m' => Same R m m' ∧
      ((r = 0 ∧ Building board m₀ R im u k none us m' ∧ m.free.length + 5 * us.length < 5 * npages newsz) ∨
        (r = max sz newsz ∧ ∃ us', npages (max sz newsz) = us'.length ∧ Building board m₀ R im u k none us' m' ∧
          userByte m' us' = userByte m us ∧ m.free.length + 5 * us.length ≤ m'.free.length + 5 * us'.length)) := by
  have hfew := h.few hm
  by_cases hlt : newsz < sz
  · unfold uvmalloc
    rw [if_pos hlt]
    refine ⟨Same.refl R m, .inr ⟨(max_eq_left hlt.le).symm, us, ?_, h, rfl, Nat.le_refl _⟩⟩
    rw [max_eq_left hlt.le]
    exact hsz
  · have hle : sz ≤ newsz := Nat.le_of_not_lt hlt
    have hu := usrMap_noUser board im.tf us
    have hk := kernMap_noUser none us
    have hends := ends_uvmalloc_of (E := E) (n := us.length) hm (sound_allows hm) trivial (Finset.Subset.refl _) hu hk hsz hle
      (by omega) (.inr (by omega)) h.pair
    have hspends : (uvmalloc board u k sz newsz).Ends (Sound board) E m fun _ m' =>
        newsz < 2 ^ 63 → m.free.length ≤ m'.free.length + 5 * (npages newsz - us.length) := by
      by_cases hmax : newsz < 2 ^ 63
      · refine (hends.and (spends_uvmalloc u k (by omega) hmax m)).imp fun r m' hr _ => ?_
        rw [← hsz]
        exact hr.2
      · exact hends.imp fun r m' _ hc => absurd hc hmax
    refine (hends.and hspends).imp fun r m' hr => ?_
    obtain ⟨⟨hedit, hr⟩, hspent⟩ := hr
    have hR : Edit usrIdx k R m m' := hedit.mono (Multiset.le_add_left _ _)
    refine ⟨hR.same, ?_⟩
    obtain ⟨hr, hback, hshort⟩ | ⟨hr, new, hlen, hall⟩ := hr
    · rw [List.length_nil, Nat.sub_zero] at hshort
      exact .inl ⟨hr, h.next hback hR h.flags, by omega⟩
    · have hpair := hall.pair
      have hb : Books board m₀ (userPages new + (tabs (pagesOf m' Finset.univ u) + (tabs (pagesOf m' usrIdx k) + (userPages us + R)))) m' := by
        refine hpair.books.congr ?_
        abel
      have hfew' := hb.length_le hm
      rw [usrMap_append board im.tf (by omega), kernMap_append none (by omega)] at hpair
      have hmono : npages sz ≤ npages newsz := by
        unfold npages
        omega
      rw [max_eq_right hle]
      have hsum : us.length + new.length = npages newsz := by omega
      refine .inr ⟨hr, us ++ new, ?_, h.next (hpair.rest ?_) hR ?_, userByte_append ?_ ?_, ?_⟩
      · rw [List.length_append, hsum]
      · rw [userPages_append]
        abel
      · intro v e he
        rw [if_neg nofun]
        by_cases hv : v < us.length
        · rw [List.getElem?_append_left hv] at he
          rw [h.flags v e he, if_neg nofun]
        · rw [List.getElem?_append_right (by omega)] at he
          exact congrArg Prod.fst (hall.filled _ e he)
      · exact fun e he => hedit.same.left.byte _ (mem_userPages he)
      · intro e he
        obtain ⟨i, hi⟩ := List.mem_iff_getElem?.mp he
        exact congrArg Prod.snd (hall.filled i e hi)
      · have hspent := hspent (by unfold npages at hsum; omega)
        rw [List.length_append]
        omega

/-! ### The page below the stack -/

/-- `uvmclear` takes a page from the user. -/
theorem ends_clear {v : Nat} (hm : Stocked board m₀) (h : Building board m₀ R im u k none us m) (hv : v < us.length) :
    (uvmclear u (v * pgsize)).Ends (Sound board) E m fun _ m' => Same R m m' ∧
      ∃ us', us'.length = us.length ∧ Building board m₀ R im u k (some v) us' m' ∧ userByte m' us' = userByte m us := by
  have hfew := h.few hm
  have hsome : usrMap board im.tf us v = some us[v] := by
    rw [usrMap, if_pos (by omega), List.getElem?_eq_getElem hv]
  have hflags : us[v].flags = 31 := by
    rw [h.flags v us[v] (List.getElem?_eq_getElem hv), if_neg (Option.some_ne_none _).symm]
  refine (ends_uvmclear hm (sound_allows hm) h.pair.onUser (by omega) (Finset.mem_univ _) hsome).imp fun _ m' hm' => ?_
  obtain ⟨h', hedit⟩ := hm'
  have hkern : Pte.kern ⟨us[v].page, noU us[v].flags⟩ = us[v].kern := by
    show (⟨us[v].page, noU (noU us[v].flags)⟩ : Pte) = ⟨us[v].page, noU us[v].flags⟩
    rw [hflags]
    rfl
  -- the list of pages, with other flags
  have hset : ∀ w, (us.set v ⟨us[v].page, noU us[v].flags⟩)[w]? = if w = v then some ⟨us[v].page, noU us[v].flags⟩ else us[w]? := by
    intro w
    rw [List.getElem?_set]
    by_cases hw : w = v
    · rw [if_pos hw.symm, if_pos hw, if_pos hv]
    · rw [if_neg (Ne.symm hw), if_neg hw]
  have hpages : (us.set v ⟨us[v].page, noU us[v].flags⟩).map Pte.page = us.map Pte.page := by
    apply List.ext_getElem?
    intro w
    rw [List.getElem?_map, List.getElem?_map, hset]
    by_cases hw : w = v
    · rw [if_pos hw, hw, List.getElem?_eq_getElem hv]
      rfl
    · rw [if_neg hw]
  have huser : ∀ w, Function.update (usrMap board im.tf us) v (some ⟨us[v].page, noU us[v].flags⟩) w =
      usrMap board im.tf (us.set v ⟨us[v].page, noU us[v].flags⟩) w := by
    intro w
    rw [Function.update_apply]
    unfold usrMap
    rw [hset]
    by_cases hw : w = v
    · rw [if_pos hw, if_pos (by omega), if_pos hw]
    · rw [if_neg hw, if_neg hw]
  have hkernMap : ∀ w, kernMap none us w = kernMap none (us.set v ⟨us[v].page, noU us[v].flags⟩) w := by
    intro w
    unfold kernMap
    rw [hset]
    by_cases hw : w = v
    · rw [if_pos (by omega), if_pos (by omega), if_pos hw, Option.map_some, hkern, hw, List.getElem?_eq_getElem hv, Option.map_some]
    · rw [if_neg hw]
  have howned : userPages (us.set v ⟨us[v].page, noU us[v].flags⟩) = userPages us := by
    have hmap := congrArg (fun l : List Page => (l.map fun p => (p, Use.user) : Multiset (Page × Use))) hpages
    simp only [List.map_map] at hmap
    exact hmap
  obtain ⟨hpair, hedit'⟩ := h.pair.ofUser (h'.congr (fun w _ _ => huser w) rfl) hedit.same
  have hs := hedit'.same.right
  refine ⟨hs, us.set v ⟨us[v].page, noU us[v].flags⟩, List.length_set, h.next ⟨hpair.user, ?_, ?_⟩ ⟨hs, hedit'.row⟩ ?_, ?_⟩
  · exact hpair.kern.congr fun w _ _ => hkernMap w
  · rw [howned]
    exact hpair.books
  · intro w e he
    rw [hset] at he
    by_cases hw : w = v
    · rw [if_pos hw] at he
      cases he
      rw [if_pos (by rw [hw]), hflags]
      rfl
    · rw [if_neg hw] at he
      rw [if_neg fun hg => hw (Option.some.inj hg).symm, h.flags w e he, if_neg (Option.some_ne_none _).symm]
  · funext va
    unfold userByte
    rw [hset]
    by_cases hw : va / pgsize = v
    · rw [if_pos hw, hw, List.getElem?_eq_getElem hv]
      show m'.byte us[v].page _ = m.byte us[v].page _
      rw [hedit'.same.left.byte _ (mem_userPages (List.getElem_mem hv))]
    · rw [if_neg hw]
      cases he : us[va / pgsize]? with
      | none => rfl
      | some e =>
        show m'.byte e.page _ = m.byte e.page _
        rw [hedit'.same.left.byte _ (mem_userPages (List.mem_of_getElem? he))]

end Building
end Farron.Memory
