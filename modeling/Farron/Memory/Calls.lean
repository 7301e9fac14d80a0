import Farron.Memory.Agreement

/-! The calls that change the memory of processes, one at a time.

What `Held` says of the memory of all processes is kept by each of them, with the images of the
processes changed as the call says. Between calls the contents of all pages may change that are
not pages of page tables (`Touched`): that is where user programs run, and the rest of the kernel. -/
namespace Farron.Memory
open Resumption Radix
variable {ι φ ε : Type} [DecidableEq ι] [Fintype ι] {board : Board} {m₀ m m' : Ram} {R : Multiset (Page × Use)}
  {E : Stop → Prop} {s s' : Sys ι φ ε} {T : ι → Option Image} {j p : ι} {im : Image}

/-! ### Contents of pages -/

/-- Page tables, the books and the pages of the boot's page table are as before. -/
structure Touched (board : Board) (m₀ m m' : Ram) : Prop where
  free : m'.free = m.free
  use : m'.use = m.use
  tables : ∀ p, m.use p = .table → m'.byte p = m.byte p
  boot : ∀ p ∈ bootPages board m₀, m'.byte p = m.byte p

theorem Touched.books (h : Touched board m₀ m m') (hb : Books board m₀ R m) : Books board m₀ R m' := by
  refine ⟨?_, ?_, fun p hp => (h.boot p hp).trans (hb.boot p hp)⟩
  · rw [h.free]
    exact hb.pages
  · rw [h.use]
    exact hb.used

theorem Held.used (h : Held board m₀ s T) (hp : T p = some im) {x : Page × Use} (hx : x ∈ im.owned s.ram) : s.ram.use x.1 = x.2 := by
  have hb := h.split p
  rw [hp, owned_some] at hb
  exact hb.used x (Multiset.mem_add.mpr (.inl hx))

theorem Held.not_boot (hm : Stocked board m₀) (h : Held board m₀ s T) (hp : T p = some im) {x : Page × Use} (hx : x ∈ im.owned s.ram) :
    x.1 ∉ bootPages board m₀ := by
  have hb := h.split p
  rw [hp, owned_some] at hb
  exact hb.not_boot hm (Multiset.mem_add.mpr (.inl (Multiset.mem_map_of_mem Prod.fst (Multiset.mem_add.mpr (.inl hx)))))

/-- An image does not notice. -/
theorem Held.touched_image (h : Held board m₀ s T) (ht : Touched board m₀ s.ram m') (hp : T p = some im) :
    Fit board m₀ m' im ∧ im.owned m' = im.owned s.ram := by
  obtain ⟨-, hfit⟩ := h.shows p im hp
  have hbyte : ∀ p, (p, Use.table) ∈ im.owned s.ram → m'.byte p = s.ram.byte p :=
    fun q hq => ht.tables q (h.used hp hq)
  have huser : ∀ q ∈ pagesOf s.ram Finset.univ im.upt, m'.byte q = s.ram.byte q :=
    fun q hq => hbyte q (Multiset.mem_add.mpr (.inl (mem_tabs.mpr ⟨hq, rfl⟩)))
  have hkern : ∀ q ∈ pagesOf s.ram procIdx im.kpt, m'.byte q = s.ram.byte q :=
    fun q hq => hbyte q (Multiset.mem_add.mpr (.inr (Multiset.mem_add.mpr (.inl (mem_tabs.mpr ⟨hq, rfl⟩)))))
  obtain ⟨hu, hpu⟩ := hfit.user.bytes huser
  obtain ⟨hk, hpk⟩ := hfit.kern.bytes hkern
  have hroot : m'.heap im.kpt = s.ram.heap im.kpt := Ram.heap_congr (hkern im.kpt (root_mem_pagesOf _ _ _))
  refine ⟨⟨hu, hk, fun i hi => ?_⟩, ?_⟩
  · rw [hroot]
    exact hfit.row i hi
  · unfold Image.owned
    rw [hpu, hpk]

theorem Held.touched_owned (h : Held board m₀ s T) (ht : Touched board m₀ s.ram m') (q : ι) : owned m' (T q) = owned s.ram (T q) := by
  cases hq : T q with
  | none => rw [owned_none, owned_none]
  | some im =>
    rw [owned_some, owned_some]
    exact (h.touched_image ht hq).2

theorem Held.touched (h : Held board m₀ s T) (ht : Touched board m₀ s.ram m') :
    Held board m₀ (⟨m', s.procs, s.nextpid, s.fs⟩ : Sys ι φ ε) T := by
  have hsum : ∑ q, owned m' (T q) = ∑ q, owned s.ram (T q) := Finset.sum_congr rfl fun q _ => h.touched_owned ht q
  have hbooks := ht.books h.books
  rw [← hsum] at hbooks
  exact ⟨fun q im hq => ⟨(h.shows q im hq).1, (h.touched_image ht hq).1⟩, h.vacant, hbooks⟩

/-! ### What the copies see -/

theorem Held.mapping (hm : Stocked board m₀) (h : Held board m₀ s T) (hp : T p = some im) :
    Mapping s.ram im.upt im.kpt im.us := by
  obtain ⟨hsh, hfit, hb⟩ := h.image hp
  have hfew : im.us.length ≤ 0x5E0 := by
    rw [← hsh.size]
    exact (h.space hp hm |>.small hm).1
  have hb' : Books board m₀ (userPages im.us + (tabs (pagesOf s.ram Finset.univ im.upt) + (tabs (pagesOf s.ram procIdx im.kpt) +
      ((im.stack, .stack) ::ₘ (im.tf, .trapframe) ::ₘ rest s.ram T p)))) s.ram := by
    refine hb.congr ?_
    abel
  obtain ⟨hnodup, hapart⟩ := hb'.distinct hm
  refine ⟨⟨_, hfit.user, fun v hv => ?_⟩, ⟨_, hfit.kern, fun v hv => ?_⟩, by omega, fun e he => hsh.userFlags he, hnodup,
    fun e he => ⟨fun hmem => ?_, fun hmem => ?_⟩⟩
  · rw [usrMap, if_pos hv]
  · rw [kernMap, if_pos hv]
  · exact hapart e he (e.page, .table) (Multiset.mem_add.mpr (.inl (mem_tabs.mpr ⟨hmem, rfl⟩))) rfl
  · exact hapart e he (e.page, .table) (Multiset.mem_add.mpr (.inr (Multiset.mem_add.mpr (.inl (mem_tabs.mpr ⟨hmem, rfl⟩))))) rfl

omit [DecidableEq ι] [Fintype ι] in
/-- The user may go where the page below the stack is not. -/
theorem Shows.usable_iff {x : Proc ι ε} (h : Shows x im) {va : Nat} (hva : (im.us[va / pgsize]?).isSome) :
    Usable im.us va ↔ x.guard ≠ some (va / pgsize) := by
  obtain ⟨e, he⟩ := Option.isSome_iff_exists.mp hva
  have hf := h.flags _ e he
  unfold Usable
  rw [he]
  by_cases hg : x.guard = some (va / pgsize)
  · rw [if_pos hg] at hf
    simp only [hg, ne_eq, not_true_eq_false, iff_false, not_exists]
    intro e' he'
    obtain ⟨h1, h2⟩ := he'
    cases h1
    rw [hf] at h2
    exact absurd h2 (by decide)
  · rw [if_neg hg] at hf
    refine ⟨fun _ => hg, fun _ => ⟨e, rfl, ?_⟩⟩
    rw [hf]
    decide

/-- What is copied to the user touches nothing else. -/
theorem Held.wrote {va len : Nat} {src : Nat → Byte} (hm : Stocked board m₀) (h : Held board m₀ s T) (hp : T p = some im)
    (hw : Wrote im.us va len src s.ram m') : Touched board m₀ s.ram m' := by
  refine ⟨hw.free, hw.use, fun q hq => hw.other q fun e he heq => ?_, fun q hq => hw.other q fun e he heq => ?_⟩
  · have hu := h.used hp (mem_owned_user he)
    rw [heq, hq] at hu
    cases hu
  · exact h.not_boot hm hp (mem_owned_user he) (heq ▸ hq)

/-- Nor what other processes have. -/
theorem Held.wrote_rest {va len : Nat} {src : Nat → Byte} (hm : Stocked board m₀) (h : Held board m₀ s T) (hp : T p = some im)
    (hw : Wrote im.us va len src s.ram m') : Same (rest s.ram T p) s.ram m' := by
  have hb := h.split p
  rw [hp, owned_some] at hb
  exact ⟨fun x hx => hw.other x.1 fun e he => hb.disjoint hm (mem_owned_user he) hx, hw.kern⟩

/-! ### growproc -/

/-- The memory of `p` has another size; what is in the pages that it keeps is as before, and new pages
are zero. -/
structure Resized (board : Board) (m₀ : Ram) (T : ι → Option Image) (p : ι) (im : Image) (us : List Pte) (s s' : Sys ι φ ε) : Prop where
  held : Held board m₀ s' (Function.update T p (some { im with us }))
  same : Same (rest s.ram T p) s.ram s'.ram
  old : ∀ (v : Nat) (e : Pte), us[v]? = some e → v < im.us.length → im.us[v]? = some e ∧ s'.ram.byte e.page = s.ram.byte e.page
  new : ∀ (v : Nat) (e : Pte), us[v]? = some e → im.us.length ≤ v → e.flags = 31 ∧ s'.ram.byte e.page = fun _ => 0
  others : ∀ q, q ≠ p → s'.procs q = s.procs q

/-- The size that `growproc` is to make of `sz`: nothing can be given back that is not there. -/
def newSize (sz : Nat) (n : Int) : Nat := if sz + n < 0 then sz else (sz + n).toNat

/-- The two page tables of a process, apart from what it has besides. -/
theorem Held.pair (h : Held board m₀ s T) (hp : T p = some im) :
    Pair board m₀ procIdx (usrMap board im.tf im.us) (kernMap (some im.stack) im.us) im.upt im.kpt
      (userPages im.us + ((im.stack, .stack) ::ₘ (im.tf, .trapframe) ::ₘ rest s.ram T p)) s.ram := by
  obtain ⟨-, hfit, hb⟩ := h.image hp
  exact ⟨hfit.user, hfit.kern, hb⟩

/-- A process whose page tables map other user pages than before. -/
theorem Held.resize {us : List Pte} {sz : Nat} (h : Held board m₀ s T) (hp : T p = some im)
    (hpair : Pair board m₀ procIdx (usrMap board im.tf us) (kernMap (some im.stack) us) im.upt im.kpt
      (userPages us + ((im.stack, .stack) ::ₘ (im.tf, .trapframe) ::ₘ rest s.ram T p)) m')
    (hedit : Edit procIdx im.kpt ((im.stack, .stack) ::ₘ (im.tf, .trapframe) ::ₘ rest s.ram T p) s.ram m')
    (hlen : npages sz = us.length) (hguard : ∀ g, (s.procs p).guard = some g → g < im.us.length)
    (hold : ∀ (v : Nat) (e : Pte), us[v]? = some e → v < im.us.length → im.us[v]? = some e)
    (hnew : ∀ (v : Nat) (e : Pte), us[v]? = some e → im.us.length ≤ v → e.flags = 31) :
    Held board m₀ ((⟨m', s.procs, s.nextpid, s.fs⟩ : Sys ι φ ε).setProc p (Proc.resize sz)) (Function.update T p (some { im with us })) := by
  obtain ⟨hsh, hfit⟩ := h.shows p im hp
  obtain ⟨hfit', hb⟩ := Pair.image { im with us } hpair fun j hj => (hedit.row j hj).trans (hfit.row j hj)
  refine h.update (fun q hq => setProc_ne _ _ _ hq) hedit.same.tail.tail (fun im' him => ?_) nofun hb
  cases him
  rw [setProc_same]
  refine ⟨⟨hsh.pagetable, hsh.kpagetable, hsh.trapframe, hlen, fun v e he => ?_⟩, hfit'⟩
  have hv := (List.getElem?_eq_some_iff.mp he).1
  show e.flags = if (s.procs p).guard.filter (· < npages sz) = some v then 15 else 31
  have hfilter : (s.procs p).guard.filter (· < npages sz) = some v ↔ (s.procs p).guard = some v := by
    rw [Option.filter_eq_some_iff]
    refine and_iff_left_of_imp fun _ => ?_
    rw [hlen]
    exact decide_eq_true hv
  simp only [hfilter]
  by_cases hlt : v < im.us.length
  · exact hsh.flags v e (hold v e he hlt)
  · rw [hnew v e he (by omega), if_neg fun hg => hlt (hguard v hg)]

/-- `growproc` comes to nothing, or to the new size. -/
def Grows (board : Board) (m₀ : Ram) (T : ι → Option Image) (p : ι) (im : Image) (n : Int) (s : Sys ι φ ε) (r : Int) (s' : Sys ι φ ε) : Prop :=
  ∃ us, Resized board m₀ T p im us s s' ∧
    ((r = -1 ∧ 0 < n ∧ us = im.us ∧ s'.procs = s.procs) ∨
      (r = 0 ∧ us.length = npages (newSize (s.procs p).sz n) ∧ s'.procs p = (s.procs p).resize (newSize (s.procs p).sz n)))

section Grow
variable {n : Int} (hm : Stocked board m₀) (h : Held board m₀ s T) (hp : T p = some im)
  (hguard : ∀ g, (s.procs p).guard = some g → g < im.us.length)
include hm h hp

/-- The pages of a process, and the size in words that `growproc` reads. -/
theorem Held.small : im.us.length ≤ 0x5E0 ∧ (s.procs p).sz < 2 ^ 31 ∧ npages (s.procs p).sz = im.us.length := by
  obtain ⟨hfew, hsz⟩ := h.space hp hm |>.small hm
  have hsize := (h.shows p im hp).1.size
  exact ⟨hsize ▸ hfew, hsz, hsize⟩

include hguard

/-- The size stays. -/
theorem comes_resize_same (hn : newSize (s.procs p).sz n = (s.procs p).sz) :
    Comes board E (do setProc p (Proc.resize (s.procs p).sz); return (0 : Int)) s (Grows board m₀ T p im n s) := by
  obtain ⟨-, -, hsize⟩ := Held.small hm h hp
  have hnone : ∀ {v : Nat} {e : Pte}, im.us[v]? = some e → ¬ im.us.length ≤ v := by
    intro v e he hv
    rw [List.getElem?_eq_none hv] at he
    cases he
  apply comes_setProc
  refine ⟨im.us, ⟨?_, Same.refl _ _, fun v e he _ => ⟨he, rfl⟩, fun v e he hv => absurd hv (hnone he), fun q hq => setProc_ne _ _ _ hq⟩,
    .inr ⟨rfl, ?_, ?_⟩⟩
  · exact h.resize hp (h.pair hp) (Edit.refl _ _ _ _) hsize hguard (fun v e he _ => he) fun v e he hv => absurd hv (hnone he)
  · rw [hn, hsize]
  · rw [hn, setProc_same]

/-- More memory. -/
theorem comes_grow (hpos : 0 < n) (hlt : n < 2 ^ 31) : Comes board E (growproc board p n) s (Grows board m₀ T p im n s) := by
  obtain ⟨hfew, hsz, hsize⟩ := Held.small hm h hp
  have hsh := (h.shows p im hp).1
  have hold : u32 (s.procs p).sz = (s.procs p).sz := Nat.mod_eq_of_lt (by omega)
  have hnew : (((u32 (s.procs p).sz : Nat) + n) % 2 ^ 32).toNat = newSize (s.procs p).sz n := by
    unfold newSize
    rw [hold, if_neg (by omega)]
    omega
  have hgrown : (s.procs p).sz ≤ newSize (s.procs p).sz n ∧ 0 < newSize (s.procs p).sz n ∧ newSize (s.procs p).sz n < 2 ^ 32 := by
    unfold newSize
    rw [if_neg (by omega)]
    omega
  obtain ⟨sz, hsz'⟩ : ∃ sz, sz = newSize (s.procs p).sz n := ⟨_, rfl⟩
  unfold growproc Grows
  rw [← hsz'] at hnew hgrown ⊢
  apply comes_look
  apply (comes_pagetables hsh.pagetable hsh.kpagetable).bind
  intro _ s₁ hs₁
  obtain ⟨rfl, rfl⟩ := hs₁
  simp only [hnew]
  rw [if_pos hpos, hold]
  have huser := usrMap_noUser board im.tf im.us
  have hkern := kernMap_noUser (some im.stack) im.us
  refine comes_vm (ends_uvmalloc_of hm (sound_allows hm) trivial (by decide) huser hkern hsize hgrown.1 (by omega)
    (.inr (by omega)) (h.pair hp)) fun r m' hr => ?_
  obtain ⟨hedit, ⟨rfl, hback, -⟩ | ⟨hres, new, hlen, hmapped⟩⟩ := hr
  · refine ⟨im.us, ⟨?_, hedit.same.right.tail.tail, fun v e he _ => ⟨he, ?_⟩, fun v e he hv => ?_, fun _ _ => rfl⟩, .inl ⟨rfl, hpos, rfl, rfl⟩⟩
    · obtain ⟨hfit', hb⟩ := Pair.image im hback fun j hj => (hedit.row j hj).trans ((h.shows p im hp).2.row j hj)
      exact h.update (o := some im) (fun _ _ => rfl) hedit.same.right.tail.tail (fun im' him => by cases him; exact ⟨hsh, hfit'⟩) nofun hb
    · exact hedit.same.left.byte _ (mem_userPages (List.mem_of_getElem? he))
    · rw [List.getElem?_eq_none hv] at he
      cases he
  · have hnz : u32 sz = sz := Nat.mod_eq_of_lt hgrown.2.2
    have hpages : npages sz = im.us.length + new.length := by
      have hle : npages (s₁.procs p).sz ≤ npages sz := by
        unfold npages
        omega
      omega
    have hfew' : im.us.length + new.length ≤ 0x5E0 := by
      rw [← List.length_append]
      refine (hmapped.pair.books.congr ?_ : Books board m₀ (userPages (im.us ++ new) + (tabs (pagesOf m' Finset.univ im.upt) +
        (tabs (pagesOf m' procIdx im.kpt) + ((im.stack, .stack) ::ₘ (im.tf, .trapframe) ::ₘ rest s₁.ram T p)))) m').length_le hm
      rw [userPages_append]
      abel
    have hpair : Pair board m₀ procIdx (usrMap board im.tf (im.us ++ new)) (kernMap (some im.stack) (im.us ++ new)) im.upt im.kpt
        (userPages (im.us ++ new) + ((im.stack, .stack) ::ₘ (im.tf, .trapframe) ::ₘ rest s₁.ram T p)) m' := by
      have hpair := hmapped.pair
      rw [usrMap_append board im.tf (by omega), kernMap_append (some im.stack) (by omega)] at hpair
      refine hpair.rest ?_
      rw [userPages_append]
      abel
    have hfirst : ∀ (v : Nat) (e : Pte), (im.us ++ new)[v]? = some e → v < im.us.length → im.us[v]? = some e := by
      intro v e he hv
      rwa [List.getElem?_append_left hv] at he
    have hfresh : ∀ (v : Nat) (e : Pte), (im.us ++ new)[v]? = some e → im.us.length ≤ v → e.flags = 31 ∧ m'.byte e.page = fun _ => 0 := by
      intro v e he hv
      rw [List.getElem?_append_right hv] at he
      have hfill := hmapped.filled _ e he
      exact ⟨congrArg Prod.fst hfill, congrArg Prod.snd hfill⟩
    rw [hres, hnz, if_neg (by omega)]
    apply comes_setProc
    refine ⟨im.us ++ new, ⟨?_, hedit.same.right.tail.tail, fun v e he hv => ⟨hfirst v e he hv, ?_⟩, hfresh, fun q hq => setProc_ne _ _ _ hq⟩,
      .inr ⟨rfl, ?_, setProc_same _ _ _⟩⟩
    · exact h.resize hp hpair (hedit.mono (Multiset.le_add_left _ _)) (by rw [hpages, List.length_append]) hguard hfirst
        fun v e he hv => (hfresh v e he hv).1
    · exact hedit.same.left.byte _ (mem_userPages (List.mem_of_getElem? (hfirst v e he hv)))
    · rw [hpages, List.length_append]

/-- Less memory. -/
theorem comes_shrink (hneg : n < 0) (hlt : -2 ^ 31 ≤ n) : Comes board E (growproc board p n) s (Grows board m₀ T p im n s) := by
  obtain ⟨hfew, hsz, hsize⟩ := Held.small hm h hp
  have hsh := (h.shows p im hp).1
  have hold : u32 (s.procs p).sz = (s.procs p).sz := Nat.mod_eq_of_lt (by omega)
  unfold growproc
  apply comes_look
  apply (comes_pagetables hsh.pagetable hsh.kpagetable).bind
  intro _ s₁ hs₁
  obtain ⟨rfl, rfl⟩ := hs₁
  dsimp only
  rw [if_neg (by omega), if_pos hneg, hold]
  by_cases hless : ((s₁.procs p).sz : Int) + n < 0
  · -- the difference wraps around, and is more than there is
    have hwrap : (((s₁.procs p).sz + n) % 2 ^ 32).toNat ≥ (s₁.procs p).sz := by omega
    unfold uvmdealloc
    rw [if_pos hwrap]
    show Comes board E (do setProc p (Proc.resize (u32 (s₁.procs p).sz)); return (0 : Int)) s₁ _
    rw [hold]
    exact comes_resize_same hm h hp hguard (if_pos hless)
  · obtain ⟨sz, hsz'⟩ : ∃ sz, sz = newSize (s₁.procs p).sz n := ⟨_, rfl⟩
    have hnew : (((s₁.procs p).sz + n) % 2 ^ 32).toNat = sz := by
      rw [hsz', newSize, if_neg hless]
      omega
    have hsmall : sz < (s₁.procs p).sz := by
      rw [hsz', newSize, if_neg hless]
      omega
    have hk : npages sz ≤ im.us.length := by
      rw [← hsize]
      unfold npages
      omega
    obtain ⟨keep, gone, hus, hkeep⟩ : ∃ keep gone, im.us = keep ++ gone ∧ keep.length = npages sz :=
      ⟨im.us.take (npages sz), im.us.drop (npages sz), (List.take_append_drop _ _).symm, List.length_take_of_le hk⟩
    have hlen : keep.length + gone.length = im.us.length := by rw [hus, List.length_append]
    have hpair := h.pair hp
    rw [hus, ← usrMap_append board im.tf (by omega), ← kernMap_append (some im.stack) (by omega), userPages_append, add_comm (userPages keep),
      add_assoc] at hpair
    refine comes_vm (ends_uvmdealloc hm (sound_allows hm) trivial (by decide) (usrMap_noUser board im.tf keep)
      (kernMap_noUser (some im.stack) keep) (by omega) hpair (hsize.trans hlen.symm) (hnew ▸ hkeep.symm) (.inl (by omega))) fun r m' hr => ?_
    obtain ⟨hres, hpair', hedit⟩ := hr
    rw [hnew, if_neg (by omega)] at hres
    have hfirst : ∀ (v : Nat) (e : Pte), keep[v]? = some e → v < im.us.length → im.us[v]? = some e := by
      intro v e he _
      rw [hus, List.getElem?_append_left (List.getElem?_eq_some_iff.mp he).1]
      exact he
    have hnone : ∀ {v : Nat} {e : Pte}, keep[v]? = some e → ¬ im.us.length ≤ v := by
      intro v e he hv
      have := (List.getElem?_eq_some_iff.mp he).1
      omega
    rw [hres, show u32 sz = sz from Nat.mod_eq_of_lt (by omega)]
    apply comes_setProc
    refine ⟨keep, ⟨?_, hedit.same.right.tail.tail, fun v e he hv => ⟨hfirst v e he hv, ?_⟩, fun v e he hv => absurd hv (hnone he),
      fun q hq => setProc_ne _ _ _ hq⟩, .inr ⟨rfl, ?_, ?_⟩⟩
    · exact h.resize hp hpair' (hedit.mono (Multiset.le_add_left _ _)) hkeep.symm hguard hfirst fun v e he hv => absurd hv (hnone he)
    · exact hedit.same.left.byte _ (mem_userPages (List.mem_of_getElem? he))
    · rw [← hsz']
      exact hkeep
    · rw [← hsz', setProc_same]

theorem comes_growproc (hn : -2 ^ 31 ≤ n) (hn' : n < 2 ^ 31) : Comes board E (growproc board p n) s (Grows board m₀ T p im n s) := by
  by_cases hpos : 0 < n
  · exact comes_grow hm h hp hguard hpos hn'
  by_cases hneg : n < 0
  · exact comes_shrink hm h hp hguard hneg hn
  have hzero : n = 0 := by omega
  obtain ⟨hfew, hsz, hsize⟩ := Held.small hm h hp
  have hsh := (h.shows p im hp).1
  have hold : u32 (s.procs p).sz = (s.procs p).sz := Nat.mod_eq_of_lt (by omega)
  unfold growproc
  apply comes_look
  apply (comes_pagetables hsh.pagetable hsh.kpagetable).bind
  intro _ s₁ hs₁
  obtain ⟨rfl, rfl⟩ := hs₁
  dsimp only
  rw [if_neg hpos, if_neg hneg, hold]
  apply comes_resize_same hm h hp hguard
  rw [hzero, newSize, if_neg (by omega)]
  omega

end Grow

/-! ### exit -/

theorem comes_exit {initproc : ι} {status : Int} (h : Held board m₀ s T) (hinit : p ≠ initproc) :
    Comes board E (exit initproc p status) s fun _ s' => Held board m₀ s' T ∧ s'.ram = s.ram ∧
      ∀ q, (s'.procs q).state = (if q = p then .zombie else (s.procs q).state) ∧ (s'.procs q).guard = (s.procs q).guard := by
  have hfields : ∀ s' : Sys ι φ ε, s'.ram = s.ram → (∀ q, (s'.procs q).pagetable = (s.procs q).pagetable ∧
      (s'.procs q).kpagetable = (s.procs q).kpagetable ∧ (s'.procs q).trapframe = (s.procs q).trapframe ∧
      (s'.procs q).sz = (s.procs q).sz ∧ (s'.procs q).state = (if q = p then .zombie else (s.procs q).state) ∧
      (s'.procs q).guard = (s.procs q).guard) →
      Held board m₀ s' T ∧ s'.ram = s.ram ∧
        ∀ q, (s'.procs q).state = (if q = p then .zombie else (s.procs q).state) ∧ (s'.procs q).guard = (s.procs q).guard := by
    intro s' hram hq
    refine ⟨h.fields hram fun q => ?_, hram, fun q => (hq q).2.2.2.2⟩
    obtain ⟨h1, h2, h3, h4, -, h6⟩ := hq q
    exact ⟨h1, h2, h3, h4, fun _ => h6⟩
  unfold exit
  rw [if_neg hinit]
  apply comes_setProc
  apply Prog.Ends.change trivial
  apply comes_setProc_last
  refine hfields _ rfl fun q => ?_
  by_cases hq : q = p
  · subst hq
    rw [setProc_same, if_pos rfl]
    unfold Sys.orphan
    simp only [setProc_same]
    split <;> exact ⟨rfl, rfl, rfl, rfl, trivial, rfl⟩
  · rw [setProc_ne _ _ _ hq, if_neg hq]
    unfold Sys.orphan
    simp only [setProc_ne _ _ _ hq]
    split <;> exact ⟨rfl, rfl, rfl, rfl, rfl, rfl⟩

/-! ### wait -/

/-- A zombie was freed, and its pid returned. -/
structure Reaped (board : Board) (m₀ : Ram) (T : ι → Option Image) (np : ι) (s s' : Sys ι φ ε) : Prop where
  held : Held board m₀ s' (Function.update T np none)
  same : Same (rest s.ram T np) s.ram s'.ram
  slot : s'.procs np = (s.procs np).gone
  others : ∀ q, q ≠ np → s'.procs q = s.procs q

/-- `freeproc` of a process with an image. -/
theorem Held.comes_freeproc (hm : Booted board m₀) (h : Held board m₀ s T) (hp : T p = some im) :
    Comes board E (freeproc board p) s fun _ s' => Reaped board m₀ T p s s' := by
  have hb := h.split p
  rw [hp, owned_some] at hb
  obtain ⟨hsh, hfit⟩ := h.shows p im hp
  refine (Memory.comes_freeproc hm hsh hfit hb).imp fun _ s' hs' => ?_
  obtain ⟨m, rfl, hb', hs⟩ := hs'
  have hothers : ∀ q, q ≠ p → (⟨m, Function.update s.procs p (s.procs p).gone, s.nextpid, s.fs⟩ : Sys ι φ ε).procs q = s.procs q :=
    fun q hq => Function.update_of_ne hq _ _
  have hself : (⟨m, Function.update s.procs p (s.procs p).gone, s.nextpid, s.fs⟩ : Sys ι φ ε).procs p = (s.procs p).gone :=
    Function.update_self _ _ _
  refine ⟨h.update hothers hs nofun (fun _ => ?_) ?_, hs, hself, hothers⟩
  · rw [hself]
    exact ⟨rfl, rfl, rfl, rfl⟩
  · rw [owned_none, zero_add]
    exact hb'

/-- `wait` goes to sleep or gives up with nothing changed, for want of a zombie child unless it is to write the
status, or frees a zombie child; the status of the child may then have been written to the user. -/
def Waits (board : Board) (m₀ : Ram) (T : ι → Option Image) (p : ι) (addr : Nat) (proc : List ι) (s : Sys ι φ ε) (r : Option Int)
    (s' : Sys ι φ ε) : Prop :=
  ((r = none ∨ r = some (-1)) ∧ s' = s ∧
      (addr = 0 → ∀ q ∈ proc, (s.procs q).parent = some p → (s.procs q).state ≠ .zombie)) ∨
    ∃ np m, r = some (s.procs np).pid ∧ (s.procs np).parent = some p ∧ (s.procs np).state = .zombie ∧
      Touched board m₀ s.ram m ∧ Same (rest s.ram T p) s.ram m ∧ Reaped board m₀ T np ⟨m, s.procs, s.nextpid, s.fs⟩ s'

theorem comes_wait {addr : Nat} {proc : List ι} (hm : Booted board m₀) (h : Held board m₀ s T) (hp : T p = some im)
    (hlive : ∀ q, (s.procs q).state = .zombie → ∃ im, T q = some im) :
    Comes board E (wait board proc p addr) s (Waits board m₀ T p addr proc s) := by
  unfold wait
  suffices hscan : ∀ (l : List ι) (kids : Bool), Comes board E (waitScan board p addr l kids) s (Waits board m₀ T p addr l s) from
    hscan proc false
  intro l
  induction l with
  | nil =>
    intro kids
    unfold waitScan
    apply comes_look
    by_cases hc : kids = false ∨ (s.procs p).killed = true
    · rw [if_pos hc]
      exact .inl ⟨.inr rfl, rfl, fun _ q hq => absurd hq List.not_mem_nil⟩
    · rw [if_neg hc]
      exact .inl ⟨.inl rfl, rfl, fun _ q hq => absurd hq List.not_mem_nil⟩
  | cons np l ih =>
    intro kids
    -- a process that is passed over is no zombie child
    have hpass : ¬ ((s.procs np).parent = some p ∧ (s.procs np).state = .zombie) → ∀ kids,
        Comes board E (waitScan board p addr l kids) s (Waits board m₀ T p addr (np :: l) s) := by
      intro hno kids
      refine (ih kids).imp fun r s' hr => hr.imp (fun hgave => ⟨hgave.1, hgave.2.1, fun haddr q hq hparent hz => ?_⟩) id
      rcases List.mem_cons.mp hq with heq | hq
      · rw [heq] at hparent hz
        exact hno ⟨hparent, hz⟩
      · exact hgave.2.2 haddr q hq hparent hz
    unfold waitScan
    apply comes_look
    by_cases hparent : (s.procs np).parent = some p
    · rw [if_pos hparent]
      by_cases hz : (s.procs np).state = .zombie
      · rw [if_pos hz]
        obtain ⟨imn, hnp⟩ := hlive np hz
        obtain ⟨hsh, -⟩ := h.shows p im hp
        apply (comes_pagetables hsh.pagetable hsh.kpagetable).bind
        intro _ s₁ hs₁
        obtain ⟨rfl, rfl⟩ := hs₁
        dsimp only
        -- the status, and then the process
        have hfree : ∀ m, Touched board m₀ s₁.ram m → Same (rest s₁.ram T p) s₁.ram m → Comes board E (do freeproc board np; return some (s₁.procs np).pid)
            ⟨m, s₁.procs, s₁.nextpid, s₁.fs⟩ (Waits board m₀ T p addr (np :: l) s₁) := by
          intro m ht hs
          apply ((h.touched ht).comes_freeproc hm hnp).bind
          exact fun _ s' hs' => .inr ⟨np, m, rfl, hparent, hz, ht, hs, hs'⟩
        by_cases haddr : addr ≠ 0
        · rw [if_pos haddr]
          refine comes_vm (ends_copyout2 (sound_allows hm.stocked) (h.mapping hm.stocked hp) hsh.size (by omega)) fun r m' hr => ?_
          obtain ⟨rfl, -, hw⟩ | ⟨rfl, -, rfl⟩ := hr
          · rw [if_neg (by decide)]
            exact hfree m' (h.wrote hm.stocked hp hw) (h.wrote_rest hm.stocked hp hw)
          · rw [if_pos (by decide)]
            exact .inl ⟨.inr rfl, rfl, fun hzero => absurd hzero haddr⟩
        · rw [if_neg haddr]
          simp only [Prog.pure_eq, Prog.ret_bind]
          rw [if_neg (by decide)]
          exact hfree s₁.ram ⟨rfl, rfl, fun _ _ => rfl, fun _ _ => rfl⟩ (Same.refl _ _)
      · rw [if_neg hz]
        exact hpass (fun hc => hz hc.2) true
    · rw [if_neg hparent]
      exact hpass (fun hc => hparent hc.1) kids

end Farron.Memory
