import Farron.Memory.Arguments

/-! `exec`.

The new address space is made next to the old one (`execBuild`): whatever goes wrong before it is
finished, all pages are free again and nothing that a process owns has changed. From there on
nothing fails: the process is given the new page tables, and the old ones are freed, but for the
part that maps the kernel stack. -/
namespace Farron.Memory
open Resumption Radix

variable {board : Board} {m₀ m m' m'' : Ram} {R : Multiset (Page × Use)} {E : Stop → Prop} {im : Image} {u k : Page} {us : List Pte}
  {guard : Option Nat} {file : Contents} {argv : List CString} {entry sz : Nat}

/-! ### The address space -/

/-- The stack that a process starts with: the second page above its memory. -/
def Flat.stack (x : Flat) (argv : List CString) : Option Stacked := Stacked.ofArgs ((npages x.size + 1) * pgsize) x.bytes argv

/-- What was made has the memory `x`, a page that is not the user's above it, and the stack `y`. -/
structure Built.Is (b : Built) (board : Board) (m₀ : Ram) (R : Multiset (Page × Use)) (im : Image) (entry : Nat) (x : Flat) (y : Stacked)
    (us : List Pte) (m : Ram) : Prop where
  building : Building board m₀ R im b.pagetable b.kpagetable (some (npages x.size)) us m
  pages : us.length = npages x.size + 2
  sz : b.sz = us.length * pgsize
  sp : b.sp = y.sp
  argc : b.argc = y.ptrs.length
  entry : b.entry = entry
  bytes : userByte m us = y.bytes

/-- What `exec` comes to from some point on: nothing is left of what was made, or all of it is made. Given
`need` pages it is made if there is a memory and a stack. -/
def Makes (board : Board) (m₀ : Ram) (R : Multiset (Page × Use)) (im : Image) (o : Option Flat) (argv : List CString) (entry : Nat)
    (need : Flat → Nat) (m : Ram) (r : Option Built) (m' : Ram) : Prop :=
  Same R m m' ∧
    ((r = none ∧ Books board m₀ R m' ∧ ∀ x, o = some x → (x.stack argv).isSome → m.free.length < need x) ∨
      ∃ b x y us, r = some b ∧ o = some x ∧ x.stack argv = some y ∧ b.Is board m₀ R im entry x y us m')

section Ends
variable (hm : Booted board m₀) (hargs : ∀ s ∈ argv, s.length < pgsize)
include hm

/-- What has been made is given back. -/
theorem Building.ends_makes {o : Option Flat} {need : Flat → Nat} (h : Building board m₀ R im u k guard us m) (hsz : npages sz = us.length)
    (hs : Same R m'' m) (hno : ∀ x, o = some x → (x.stack argv).isSome → m''.free.length < need x) :
    (execBad board (some u) k sz).Ends (Sound board) E m (Makes board m₀ R im o argv entry need m'') := by
  refine (h.ends_bad hm hsz).imp fun r m' hr => ?_
  obtain ⟨hr, hb, hs'⟩ := hr
  exact ⟨hs.trans hs', .inl ⟨hr, hb, hno⟩⟩

include hargs

theorem ends_execStack {x : Flat} (h : Standing board m₀ R im u k none us x m) :
    (execStack board u k entry x.size argv).Ends (Sound board) E m
      (Makes board m₀ R im (some x) argv entry (fun _ => 10) m) := by
  have hfew := h.building.few hm.stocked
  have hsz := h.size
  have hround : pgroundup x.size = us.length * pgsize := pgroundup_eq hsz (by omega)
  have hpages : npages (us.length * pgsize) = us.length := npages_mul _
  have hsum : u64 (us.length * pgsize + 2 * pgsize) = (us.length + 2) * pgsize := by
    simp only [u64, pgsize_eq]
    omega
  unfold execStack
  dsimp only
  rw [hround, hsum]
  apply (h.building.ends_grow hm.stocked hpages).bind
  intro r m₁ hr
  have hmax : max (us.length * pgsize) ((us.length + 2) * pgsize) = (us.length + 2) * pgsize := by
    simp only [pgsize_eq]
    omega
  rw [hmax, npages_mul] at hr
  obtain ⟨hs₁, ⟨hzero, hb₁, hshort⟩ | ⟨hr, us₁, hsz₁, hb₁, hbytes₁, -⟩⟩ := hr
  · rw [if_pos hzero]
    refine hb₁.ends_makes hm hpages hs₁ fun x' hx' _ => ?_
    cases hx'
    omega
  rw [hr]
  have hbase : (us.length + 2) * pgsize - pgsize = (us.length + 1) * pgsize := by
    simp only [pgsize_eq]
    omega
  have hclear : (us.length + 2) * pgsize - 2 * pgsize = us.length * pgsize := by
    simp only [pgsize_eq]
    omega
  have htop : (us.length + 1) * pgsize + pgsize = (us.length + 2) * pgsize := by
    simp only [pgsize_eq]
    omega
  rw [if_neg (by simp only [pgsize_eq]; omega), hbase, hclear, ← htop]
  apply (hb₁.ends_clear hm.stocked (v := us.length) (by omega)).bind
  intro _ m₂ h₂
  obtain ⟨hs₂, us₂, hlen₂, hb₂, hbytes₂⟩ := h₂
  have hbase₂ : (us.length + 1) * pgsize + pgsize = us₂.length * pgsize := by rw [htop, hlen₂, ← hsz₁]
  apply (ends_pushStack hm.stocked hbase₂ (by rw [hlen₂, ← hsz₁]; simp) (Nat.le_mul_of_pos_left _ (Nat.succ_pos _)) hb₂ hargs).bind
  intro r m₃ hr
  obtain ⟨hb₃, hs₃, -, hr, hbytes₃⟩ := hr
  have hmem : userByte m₂ us₂ = x.bytes := by rw [hbytes₂, hbytes₁, h.bytes]
  have hstack : Stacked.ofArgs ((us.length + 1) * pgsize) (userByte m₂ us₂) argv = x.stack argv := by
    unfold Flat.stack
    rw [hmem, hsz]
  rw [hstack] at hr hbytes₃
  have hs : Same R m m₃ := (hs₁.trans hs₂).trans hs₃
  cases hy : x.stack argv with
  | none =>
    rw [hy] at hr
    rw [hr]
    dsimp only [Option.map_none]
    refine hb₃.ends_makes hm ?_ hs fun x' hx' hsome => ?_
    · rw [hbase₂, npages_mul]
    · cases hx'
      rw [hy] at hsome
      cases hsome
  | some y =>
    rw [hy] at hr
    rw [hr]
    dsimp only [Option.map_some]
    refine ⟨hs, .inr ⟨_, x, y, us₂, rfl, rfl, hy, ?_⟩⟩
    rw [← hsz] at hb₃
    exact ⟨hb₃, by omega, hbase₂, rfl, rfl, rfl, hbytes₃ y hy⟩

/-- From the file on. -/
theorem ends_execLoad (hfit : Fit board m₀ m im) (howned : im.owned m ≤ R) (hrow : ∀ j, j ∉ usrIdx → m.heap k j = m.heap im.kpt j)
    (h : Holds board m₀ usrIdx (fun _ => none) k R m) :
    (execLoad board im.tf k file argv).Ends (Sound board) E m
      (Makes board m₀ R im (Flat.ofFile file) argv (Elfhdr.of (bytesOf file)).entry (fun x => 13 + 5 * npages x.size) m) := by
  -- nothing but the root has been made
  have hbad : ∀ {m' : Ram}, Holds board m₀ usrIdx (fun _ => none) k R m' → Same R m m' →
      (∀ x, Flat.ofFile file = some x → m.free.length < 13 + 5 * npages x.size) →
      (execBad board none k 0).Ends (Sound board) E m'
        (Makes board m₀ R im (Flat.ofFile file) argv (Elfhdr.of (bytesOf file)).entry (fun x => 13 + 5 * npages x.size) m) := by
    intro m' h' hs hno
    unfold execBad
    simp only [Prog.pure_eq, Prog.ret_bind]
    apply (Building.ends_free_kern hm.stocked h').bind
    exact fun _ m'' h'' => ⟨hs.trans h''.2, .inl ⟨rfl, h''.1, fun x hx _ => hno x hx⟩⟩
  unfold execLoad
  dsimp only
  have hread : InFile file 0 elfhdrSz ↔ (eread file 0 elfhdrSz).length = elfhdrSz := inFile_iff (by decide) (by decide) (by decide)
  by_cases hlen : (eread file 0 elfhdrSz).length = elfhdrSz
  swap
  · rw [if_pos hlen]
    refine hbad h (Same.refl R m) fun x hx => ?_
    unfold Flat.ofFile at hx
    rw [if_neg fun hc => hlen (hread.mp hc.1)] at hx
    cases hx
  rw [if_neg fun hc => hc hlen, elfhdr_eread hlen]
  by_cases hmagic : (Elfhdr.of (bytesOf file)).magic = elfMagic
  swap
  · rw [if_pos hmagic]
    refine hbad h (Same.refl R m) fun x hx => ?_
    unfold Flat.ofFile at hx
    rw [if_neg fun hc => hmagic hc.2] at hx
    cases hx
  have hfile : Flat.ofFile file = Flat.segments file (Elfhdr.of (bytesOf file)).phnum (u32 (Elfhdr.of (bytesOf file)).phoff) .empty := by
    unfold Flat.ofFile
    dsimp only
    rw [if_pos ⟨hread.mpr hlen, hmagic⟩]
  rw [if_neg fun hc => hc hmagic]
  have htf : im.tf < 2 ^ 52 := by
    have hmem : (im.tf, Use.trapframe) ∈ tabs (pagesOf m usrIdx k) + R :=
      Multiset.mem_add.mpr (.inr (Multiset.mem_of_le howned (mem_owned_trapframe m im)))
    exact (h.books.managed hm.stocked hmem).lt
  apply (ends_procPagetable hm (sound_allows hm.stocked) trivial htf h.books).bind
  intro r m₁ hr
  obtain ⟨hs₁, ⟨rfl, hb₁, hshort⟩ | ⟨u, rfl, hu, -, hfree₁⟩⟩ := hr
  · have hk := hs₁.left
    refine hbad ⟨h.table.same hk, ?_⟩ hs₁.right fun x _ => by omega
    rw [hk.pagesOf]
    exact hb₁
  have hk := hs₁.left
  have hroot : (im.kpt, Use.table) ∈ R := Multiset.mem_of_le howned
    (Multiset.mem_add.mpr (.inr (Multiset.mem_add.mpr (.inl (mem_tabs.mpr ⟨root_mem_pagesOf _ _ _, rfl⟩)))))
  obtain ⟨hfit₁, howned₁⟩ := hfit.same (hs₁.right.mono howned)
  have hb : Building board m₀ R im u k none [] m₁ := by
    refine ⟨⟨hu.table, (h.table.same hk).congr fun v _ _ => ?_, ?_⟩, fun j hj => ?_, hfit₁, ?_, nofun⟩
    · unfold kernMap
      rw [List.getElem?_nil, Option.map_none, Option.map_none, ite_self, ite_self]
    · rw [hk.pagesOf, userPages_nil, zero_add]
      exact hu.books
    · rw [hk.tabs_heap (root_mem_pagesOf _ _ _), hs₁.right.heap hroot, hrow j hj]
    · rw [howned₁]
      exact howned
  have hstart : Standing board m₀ R im u k none [] .empty m₁ := ⟨hb, rfl, rfl⟩
  dsimp only
  apply (ends_loadAll hm.stocked (Elfhdr.of (bytesOf file)).phnum hstart (u32_lt _)).bind
  intro r m₂ hr
  obtain ⟨loaded, sz⟩ := r
  obtain ⟨hs₂, us, hsz, hb₂, ⟨htrue, x, hx, hxsz, hstanding, hspent⟩ | ⟨hfalse, hshort⟩⟩ := hr
  · dsimp only at htrue hxsz
    rw [htrue, if_pos rfl, hxsz, hfile, hx]
    refine (ends_execStack hm hargs hstanding).imp fun r m' hr => ?_
    obtain ⟨hs₃, hr⟩ := hr
    refine ⟨(hs₁.right.trans hs₂).trans hs₃, hr.imp (fun hno => ⟨hno.1, hno.2.1, fun x' hx' hsome => ?_⟩) id⟩
    have hshort := hno.2.2 x' hx' hsome
    cases hx'
    rw [List.length_nil] at hspent
    have hsize := hstanding.size
    dsimp only at hshort ⊢
    omega
  · dsimp only at hfalse
    subst hfalse
    simp only [Bool.false_eq_true, if_false]
    rw [← hfile] at hshort
    refine hb₂.ends_makes hm hsz (hs₁.right.trans hs₂) fun x hx _ => ?_
    have hshort := hshort x hx
    rw [List.length_nil] at hshort
    omega

/-- What a path leads to as the memory of a process. -/
def Flat.ofPath (file : Option Contents) : Option Flat := file.bind Flat.ofFile

def entryOf (file : Option Contents) : Nat := file.elim 0 fun file => (Elfhdr.of (bytesOf file)).entry

theorem ends_execBuild {file : Option Contents} (hfit : Fit board m₀ m im) (howned : im.owned m ≤ R) (hb : Books board m₀ R m) :
    (execBuild board im.kpt im.tf file argv).Ends (Sound board) E m
      (Makes board m₀ R im (Flat.ofPath file) argv (entryOf file) (fun x => 14 + 5 * npages x.size) m) := by
  unfold execBuild
  apply ends_kalloc (u := .table) hm.stocked (sound_allows hm.stocked) hb
  · intro hf
    refine ⟨Same.refl R m, .inl ⟨rfl, hb, fun x _ _ => ?_⟩⟩
    rw [hf]
    exact Nat.lt_of_lt_of_le (Nat.succ_pos 13) (Nat.le_add_right _ _)
  intro k m₁ hf hb₁ hs₁
  have hfree₁ : m.free.length = m₁.free.length + 1 := by
    rw [hf]
    rfl
  obtain ⟨hfit₁, howned₁⟩ := hfit.same (hs₁.mono howned)
  have hroot : (im.kpt, Use.table) ∈ R := Multiset.mem_of_le howned
    (Multiset.mem_add.mpr (.inr (Multiset.mem_add.mpr (.inl (mem_tabs.mpr ⟨root_mem_pagesOf _ _ _, rfl⟩)))))
  dsimp only
  rw [← Prog.bind_assoc]
  apply (ends_copyRoot hm.stocked hb₁ hroot).bind
  intro _ m₂ h₂
  obtain ⟨h₂, hs₂, hfree₂, hrow₂⟩ := h₂
  obtain ⟨hfit₂, howned₂⟩ := hfit₁.same (hs₂.mono (howned₁.symm ▸ howned))
  have hs : Same R m m₂ := hs₁.trans hs₂
  cases file with
  | none =>
    unfold execBad
    simp only [Prog.pure_eq, Prog.ret_bind]
    apply (Building.ends_free_kern hm.stocked h₂).bind
    exact fun _ m' h' => ⟨hs.trans h'.2, .inl ⟨rfl, h'.1, nofun⟩⟩
  | some file =>
    refine (ends_execLoad hm hargs hfit₂ ?_ hrow₂ h₂).imp fun r m' hr => ?_
    · rw [howned₂, howned₁]
      exact howned
    · obtain ⟨hs₃, hr⟩ := hr
      refine ⟨hs.trans hs₃, hr.imp (fun hno => ⟨hno.1, hno.2.1, fun x hx hsome => ?_⟩) id⟩
      have hshort := hno.2.2 x hx hsome
      rw [hfree₂] at hshort
      dsimp only at hshort ⊢
      omega

end Ends

/-! ### The old address space -/

/-- What goes with the old image: its user pages, and the page tables but for the part that maps the stack. -/
def Image.left (im : Image) (m : Ram) : Multiset (Page × Use) :=
  tabs (pagesOf m Finset.univ im.upt) + (tabs (pagesOf m usrIdx im.kpt) + userPages im.us)

/-- The image that takes its place. -/
def Image.turned (im : Image) (b : Built) (us : List Pte) : Image := { im with upt := b.pagetable, kpt := b.kpagetable, us }

theorem Built.Is.turn {b : Built} {x : Flat} {y : Stacked} (h : b.Is board m₀ (im.owned m + R) im entry x y us m) :
    (∀ j, j ∉ procIdx → m.heap im.kpt j = m₀.heap board.kernelPagetable j) ∧
      Fit board m₀ m (im.turned b us) ∧ Books board m₀ ((im.turned b us).owned m + (im.left m + R)) m := by
  have hb := h.building
  obtain ⟨hkern, hpages⟩ := hb.kern
  refine ⟨hb.old.row, ⟨hb.pair.user, hkern, fun j hj => ?_⟩, hb.pair.books.congr ?_⟩
  · show m.heap b.kpagetable j = _
    rw [hb.row j fun hc => hj (Finset.mem_insert_of_mem hc)]
    exact hb.old.row j hj
  · show _ = tabs (pagesOf m Finset.univ b.pagetable) + (tabs (pagesOf m procIdx b.kpagetable) + (userPages us + ((im.stack, .stack) ::ₘ
      {(im.tf, .trapframe)}))) + (im.left m + R)
    rw [hpages]
    unfold Image.owned Image.left Image.pages
    rw [pagesOf_procIdx m im.kpt, tabs_add, tabs_add]
    abel

section Ends
variable (hm : Booted board m₀)
include hm

/-- The old address space is freed. -/
theorem ends_freeLeft {g : Nat → Option Pte} (hu : Table Finset.univ (usrMap board im.tf im.us) m im.upt) (hk : Table usrIdx g m im.kpt)
    (hsz : npages sz = im.us.length) (hb : Books board m₀ (im.left m + R) m) :
    (procFreepagetable board im.upt sz).Ends (Sound board) E m fun _ m' => Same R m m' ∧
      (kvmfree board im.kpt false).Ends (Sound board) E m' fun _ m'' => Books board m₀ R m'' ∧ Same R m m'' := by
  have hb' : Books board m₀ (tabs (pagesOf m Finset.univ im.upt) + (userPages im.us + (tabs (pagesOf m usrIdx im.kpt) + R))) m := by
    refine hb.congr ?_
    unfold Image.left
    abel
  have hfew : im.us.length ≤ 0x5E0 := by
    refine (hb'.congr ?_ : Books board m₀ (userPages im.us + (tabs (pagesOf m Finset.univ im.upt) + (tabs (pagesOf m usrIdx im.kpt) + R))) m).length_le hm.stocked
    abel
  refine (ends_procFreepagetable hm (sound_allows hm.stocked) trivial trivial hsz (by omega) ⟨hu, hb'⟩).imp fun _ m₁ h₁ => ?_
  obtain ⟨hb₁, hs₁⟩ := h₁
  refine ⟨hs₁.right, ?_⟩
  have hkern : Holds board m₀ usrIdx g im.kpt R m₁ := by
    refine ⟨hk.same hs₁.left, ?_⟩
    rw [hs₁.left.pagesOf]
    exact hb₁
  exact (Building.ends_free_kern hm.stocked hkern).imp fun _ m₂ h₂ => ⟨h₂.1, hs₁.right.trans h₂.2⟩

end Ends

/-! ### The process -/

variable {ι φ ε : Type} [DecidableEq ι] [Fintype ι] {s s' : Sys ι φ ε} {T : ι → Option Image} {p : ι} {path : CString}
  {file : Option Contents}

/-- The process `p` has become another program. -/
structure Executed (board : Board) (m₀ : Ram) (T : ι → Option Image) (p : ι) (im new : Image) (path : CString) (entry : Nat) (x : Flat)
    (y : Stacked) (s s' : Sys ι φ ε) : Prop where
  held : Held board m₀ s' (Function.update T p (some new))
  same : Same (rest s.ram T p) s.ram s'.ram
  pages : new.us.length = npages x.size + 2
  bytes : userByte s'.ram new.us = y.bytes
  kept : new.tf = im.tf ∧ new.stack = im.stack
  registers : s'.ram.byte im.tf = putWord64 tfSp y.sp (putWord64 tfEpc entry (putWord64 tfA1 y.sp (s.ram.byte im.tf)))
  slot : s'.procs p = { s.procs p with
    name := (lastPiece path).take (nameSz - 1), pagetable := some new.upt, kpagetable := some new.kpt,
    sz := new.us.length * pgsize, guard := some (npages x.size) }
  others : ∀ q, q ≠ p → s'.procs q = s.procs q

/-- Nothing that a process has is different. -/
structure Unchanged (board : Board) (m₀ : Ram) (T : ι → Option Image) (s s' : Sys ι φ ε) : Prop where
  held : Held board m₀ s' T
  same : Same (∑ q, owned s.ram (T q)) s.ram s'.ram
  free : s'.ram.free.Perm s.ram.free
  procs : s'.procs = s.procs

omit [DecidableEq ι] [Fintype ι] in
theorem userByte_congr (h : ∀ e ∈ us, m'.byte e.page = m.byte e.page) : userByte m' us = userByte m us := by
  funext va
  unfold userByte
  cases he : us[va / pgsize]? with
  | none => rfl
  | some e => exact congrFun (h e (List.mem_of_getElem? he)) _

/-- `exec` comes to nothing, or to a new program. -/
def Execs (board : Board) (m₀ : Ram) (T : ι → Option Image) (p : ι) (im : Image) (path : CString) (file : Option Contents) (argv : List CString)
    (s : Sys ι φ ε) (r : Int) (s' : Sys ι φ ε) : Prop :=
  (r = -1 ∧ Unchanged board m₀ T s s' ∧
      ∀ x, Flat.ofPath file = some x → (x.stack argv).isSome → s.ram.free.length < 14 + 5 * npages x.size) ∨
    ∃ new x y, r = argv.length ∧ Flat.ofPath file = some x ∧ x.stack argv = some y ∧
      Executed board m₀ T p im new path (entryOf file) x y s s'

/-- Nothing owned has changed. -/
theorem Held.unchanged (h : Held board m₀ s T) (hb : Books board m₀ (∑ q, owned s.ram (T q)) m')
    (hs : Same (∑ q, owned s.ram (T q)) s.ram m') : Unchanged board m₀ T s ⟨m', s.procs, s.nextpid, s.fs⟩ := by
  have himage : ∀ q im, T q = some im → Fit board m₀ m' im ∧ im.owned m' = im.owned s.ram := by
    intro q im hq
    refine (h.shows q im hq).2.same (hs.mono ?_)
    rw [sum_rest s.ram T q, hq, owned_some]
    exact Multiset.le_add_right _ _
  have hsum : ∑ q, owned m' (T q) = ∑ q, owned s.ram (T q) := by
    apply Finset.sum_congr rfl
    intro q _
    cases hq : T q with
    | none => rw [owned_none, owned_none]
    | some im =>
      rw [owned_some, owned_some]
      exact (himage q im hq).2
  have hbooks := hb
  rw [← hsum] at hbooks
  exact ⟨⟨fun q im hq => ⟨(h.shows q im hq).1, (himage q im hq).1⟩, h.vacant, hbooks⟩, hs, h.books.free_perm hb, rfl⟩

omit [Fintype ι] in
/-- The registers that `exec` sets, and the fields of the process. -/
theorem comes_commit {β : Type} {b : Built} {Q : β → Sys ι φ ε → Prop} {tf : Page} {k : Unit → Code ι φ ε β} {f : ι → Proc ι ε} {n : Int} {fs : φ}
    (hk : ∀ m' y, m' = m.write tf (putWord64 tfSp b.sp (putWord64 tfEpc b.entry (putWord64 tfA1 b.sp (m.byte tf)))) →
      y = { f p with
        name := (lastPiece path).take (nameSz - 1), pagetable := some b.pagetable, kpagetable := some b.kpagetable, sz := b.sz,
        guard := some (b.sz / pgsize - 2) } →
      Comes board E (k ()) ⟨m', Function.update f p y, n, fs⟩ Q) : Comes board E (commit p tf path b >>= k) ⟨m, f, n, fs⟩ Q := by
  unfold commit
  simp only [Prog.bind_assoc]
  refine comes_vm_at (P := fun _ m' => m' = m.write tf (putWord64 tfA1 b.sp (m.byte tf))) (Prog.Ends.change_last trivial rfl) fun _ m₁ hm₁ => ?_
  apply comes_slot
  intro y₁ hy₁
  apply comes_slot_again
  intro y₂ hy₂
  refine comes_vm_at (P := fun _ m' => m' = m₁.write tf (putWord64 tfEpc b.entry (m₁.byte tf))) (Prog.Ends.change_last trivial rfl) fun _ m₂ hm₂ => ?_
  refine comes_vm_at (P := fun _ m' => m' = m₂.write tf (putWord64 tfSp b.sp (m₂.byte tf))) (Prog.Ends.change_last trivial rfl) fun _ m₃ hm₃ => ?_
  rw [hm₁, write_write] at hm₂
  rw [hm₂, write_write] at hm₃
  rw [hy₁] at hy₂
  exact hk m₃ y₂ hm₃ hy₂

theorem comes_exec (hm : Booted board m₀) (hargs : ∀ s ∈ argv, s.length < pgsize) (h : Held board m₀ s T) (hp : T p = some im) :
    Comes board E (exec board p path file argv) s (Execs board m₀ T p im path file argv s) := by
  obtain ⟨hsh, hfit⟩ := h.shows p im hp
  have hb := h.split p
  rw [hp, owned_some] at hb
  unfold exec
  apply comes_look
  apply (comes_pagetables hsh.pagetable hsh.kpagetable).bind
  intro _ s₁ hs₁
  obtain ⟨rfl, rfl⟩ := hs₁
  simp only [hsh.trapframe, deref, Prog.pure_eq, Prog.ret_bind]
  have hsum : ∑ q, owned s₁.ram (T q) = im.owned s₁.ram + rest s₁.ram T p := by rw [sum_rest s₁.ram T p, hp, owned_some]
  refine comes_vm (ends_execBuild hm hargs hfit (Multiset.le_add_right _ _) hb) fun r m₁ hr => ?_
  obtain ⟨hs₁, ⟨rfl, hb₁, hno⟩ | ⟨b, x, y, us, rfl, hx, hy, his⟩⟩ := hr
  · rw [← hsum] at hb₁ hs₁
    exact .inl ⟨rfl, h.unchanged hb₁ hs₁, hno⟩
  have howned := (hfit.same hs₁.left).2
  rw [← howned] at his
  obtain ⟨-, hfit₁, hb₁⟩ := his.turn
  dsimp only
  apply comes_commit
  intro m₂ z hm₂ hz
  -- the registers are written, and the old address space is freed
  obtain ⟨hfit₂, hb₂, hs₂⟩ := Image.write_trapframe (im.turned b us) hm.stocked hfit₁ hb₁
    (putWord64 tfSp b.sp (putWord64 tfEpc b.entry (putWord64 tfA1 b.sp (m₁.byte im.tf))))
  rw [show (im.turned b us).tf = im.tf from rfl, ← hm₂] at hfit₂ hb₂ hs₂
  have hleft : Same (im.left m₁) m₁ m₂ := hs₂.right.left
  have hkern₁ := his.building.old.kern.mono (Finset.subset_insert stackIdx usrIdx)
  have hb₂' : Books board m₀ (im.left m₂ + ((im.turned b us).owned m₂ + rest s₁.ram T p)) m₂ := by
    refine hb₂.congr ?_
    unfold Image.left
    rw [hleft.left.pagesOf, hleft.right.left.pagesOf]
    abel
  refine comes_vm_at (ends_freeLeft (E := E) hm (his.building.old.user.same hleft.left) (hkern₁.same hleft.right.left) hsh.size hb₂')
    fun _ m₃ h₃ => ?_
  refine comes_vm_at h₃.2 fun _ m₄ h₄ => ?_
  obtain ⟨hb₄, hs⟩ := h₄
  obtain ⟨hfit₄, howned₄⟩ := hfit₂.same hs.left
  have hrest : Same (rest s₁.ram T p) s₁.ram m₄ := (hs₁.right.trans hs₂.right.right).trans hs.right
  have hb₄' : Books board m₀ ((im.turned b us).owned m₄ + rest s₁.ram T p) m₄ := by
    rw [howned₄]
    exact hb₄
  have hpages := his.pages
  have hsz := his.sz
  have hguard : b.sz / pgsize - 2 = npages x.size := by
    rw [hsz, Nat.mul_div_cancel _ (by decide), hpages, Nat.add_sub_cancel]
  have hself : (⟨m₄, Function.update s₁.procs p z, s₁.nextpid, s₁.fs⟩ : Sys ι φ ε).procs p = z := Function.update_self _ _ _
  have hfew := his.building.few hm.stocked
  have harranged : Stacked.Arranged ((npages x.size + 1) * pgsize) x.bytes argv y := by
    apply Stacked.ofArgs_arranged
    · exact Nat.mul_pos (Nat.succ_pos _) (by decide)
    · simp only [pgsize_eq]
      omega
    · simp only [pgsize_eq]
      omega
    · exact hy
  refine .inr ⟨im.turned b us, x, y, ?_, hx, hy, ⟨?_, hrest, hpages, ?_, ⟨rfl, rfl⟩, ?_, ?_, fun q hq => Function.update_of_ne hq _ _⟩⟩
  · rw [his.argc, harranged.count]
  · refine h.update (fun q hq => Function.update_of_ne hq _ _) hrest (fun im' him => ?_) (fun hc => absurd hc (Option.some_ne_none _)) hb₄'
    cases him
    rw [hself, hz]
    refine ⟨⟨rfl, rfl, hsh.trapframe, ?_, fun v e he => ?_⟩, hfit₄⟩
    · rw [hsz]
      exact npages_mul _
    · rw [hguard]
      exact his.building.flags v e he
  · rw [← his.bytes]
    apply userByte_congr
    intro e he
    exact (hs.left.byte _ (mem_owned_user he)).trans (hs₂.left.byte _ (mem_userPages he))
  · have hlast : m₄.byte im.tf = m₂.byte im.tf := hs.left.byte _ (mem_owned_trapframe m₂ (im.turned b us))
    rw [hlast, hm₂, ← his.sp, ← his.entry]
    show (m₁.write im.tf _).byte im.tf = _
    rw [Ram.write_byte, hs₁.left.byte _ (mem_owned_trapframe s₁.ram im)]
  · rw [hself, hz, hsz, ← hsz, hguard, hsz]
    rfl

end Farron.Memory
