import Farron.Memory.Lifetimes

/-! What holds of the memory of processes in every state between calls.

The states are those of `Reached`: any calls of any processes in any order since the boot, with any
programs in between. -/
namespace Farron.Memory
open Resumption Radix
variable {ι φ ε : Type} [DecidableEq ι] [Fintype ι] {board : Board} {m₀ m m' : Ram} {s s' : Sys ι φ ε} {p initproc : ι} {proc : List ι}

/-! ### A small machine -/

/-- The last 64 pages are managed; the first of them is the kernel's own page table. -/
def smallBoard : Board := ⟨0x805C0000, 0, 0x805C0⟩

def smallRam : Ram := ⟨List.range' 0x805C1 63, fun _ _ => 0, fun _ => 0, fun _ => .table⟩

/-- The last 19 pages: too few for a second process. -/
def tinyBoard : Board := ⟨0x805ED000, 0, 0x805ED⟩

def tinyRam : Ram := ⟨List.range' 0x805EE 18, fun _ _ => 0, fun _ => 0, fun _ => .table⟩

/-- The pages behind a blank page table are free. -/
theorem blank_booted {k n : Nat} (hk : 0x80020 ≤ k) (hn : 13 ≤ n) (hend : (k + 1 + n) * pgsize = phystop) :
    Booted ⟨k * pgsize, 0, k⟩ ⟨List.range' (k + 1) n, fun _ _ => 0, fun _ => 0, fun _ => .table⟩ := by
  obtain ⟨board, hboard⟩ : ∃ board : Board, board = ⟨k * pgsize, 0, k⟩ := ⟨_, rfl⟩
  obtain ⟨m, hm⟩ : ∃ m : Ram, m = ⟨List.range' (k + 1) n, fun _ _ => 0, fun _ => 0, fun _ => .table⟩ := ⟨_, rfl⟩
  rw [← hboard, ← hm]
  have hrow : ∀ i, m.heap board.kernelPagetable i = .empty := fun i => Ram.heap_zero _ (by rw [hm]) i
  have hboot : bootPages board m = {k} := by
    have hroot : board.kernelPagetable = k := by rw [hboard]
    rw [bootPages, hroot]
    exact pagesOf_blank fun i _ => hroot ▸ hrow i
  have hfree : m.free = List.range' (k + 1) n := by rw [hm]
  refine ⟨?_, ?_, ?_, fun p => ?_, ?_, fun i _ => hrow i⟩
  · rw [hboard]
    simp only [pgsize_eq]
    omega
  · rw [hboard]
    exact (by decide : 0 * pgsize < phystop)
  · rw [hboot, hfree]
    refine Multiset.nodup_add.mpr ⟨Multiset.coe_nodup.mpr List.nodup_range', Multiset.nodup_singleton k, ?_⟩
    rw [Multiset.disjoint_singleton, Multiset.mem_coe, List.mem_range'_1]
    omega
  · have hrange : ∀ p : Nat, (k * pgsize ≤ p * pgsize ∧ p * pgsize < phystop) ↔ p ∈ List.range' (k + 1) n ∨ p = k := by
      intro p
      rw [List.mem_range'_1, ← hend]
      simp only [pgsize_eq]
      omega
    rw [hboot, hfree, Multiset.mem_singleton, hboard]
    exact hrange p
  · rw [hfree, List.length_range']
    exact hn

theorem small_booted : Booted smallBoard smallRam := blank_booted (k := 0x805C0) (n := 63) (by decide) (by decide) (by decide)

theorem tiny_booted : Booted tinyBoard tinyRam := blank_booted (k := 0x805ED) (n := 18) (by decide) (by decide) (by decide)

/-- Its state when one of two processes is there. -/
theorem small_reached : ∃ (s : Sys (Fin 2) Unit Unit) (p : Fin 2), Reached smallBoard smallRam [0, 1] 0 s ∧ (s.procs p).state ≠ .unused ∧
    50 ≤ s.ram.free.length := by
  have hends : Comes smallBoard (fun _ => False) (userinit smallBoard [0, 1]) (boot smallRam () [] : Sys (Fin 2) Unit Unit) _ :=
    comes_userinit small_booted () [] (List.cons_ne_nil 0 [1])
  obtain ⟨_, s, hrun, p, im, hfirst⟩ := hends.returns
  have htaken := hfirst.taken
  have hfree : smallRam.free.length = 63 := List.length_range'
  refine ⟨s, p, .start () [] hrun, ?_, by omega⟩
  rw [hfirst.state]
  exact fun hx => ProcState.noConfusion hx

/-- The process has a child, which is running. -/
theorem small_forked : ∃ s : Sys (Fin 2) Unit Unit, Reached smallBoard smallRam [0, 1] 0 s ∧
    (s.procs 0).state ≠ .unused ∧ (s.procs 1).state = .runnable :=
  Reached.of_calls () [] [(0, .fork)] (List.forall_mem_singleton.mpr trivial) (by decide +kernel)

/-- The child has exited. -/
theorem small_orphaned : ∃ s : Sys (Fin 2) Unit Unit, Reached smallBoard smallRam [0, 1] 0 s ∧
    (s.procs 0).state ≠ .unused ∧ (s.procs 1).state = .zombie ∧ (s.procs 1).parent = some 0 ∧ (s.procs 0).parent = none :=
  Reached.of_calls () [] [(0, .fork), (1, .exit 7)] (List.forall_mem_cons.mpr ⟨trivial, List.forall_mem_singleton.mpr trivial⟩)
    (by decide +kernel)

/-- After the first process five pages are free. -/
theorem tiny_reached : ∃ s : Sys (Fin 2) Unit Unit, Reached tinyBoard tinyRam [0, 1] 0 s ∧
    (s.procs 0).state ≠ .unused ∧ (s.procs 1).state = .unused ∧ s.ram.free.length = 5 :=
  Reached.of_calls () [] [] (List.forall_mem_nil _) (by decide +kernel)

/-! ### Pages -/

/-- Every page that the boot has left is in one place: it is free, or one live process has it, for one use;
so no page is lost, and none is shared. The pages of the boot's own page table are as the boot left them. -/
theorem pages_owned (hm : Booted board m₀) (hproc : proc ≠ []) (h : Reached board m₀ proc initproc s) :
    ∃ T : ι → Option Image, (∀ q, T q = none ↔ (s.procs q).state = .unused) ∧
      (∀ q im, T q = some im → Shows (s.procs q) im ∧ Fit board m₀ s.ram im) ∧
      (∑ q, owned s.ram (T q)).map Prod.fst + (s.ram.free : Multiset Page) = m₀.free ∧
      ((∑ q, owned s.ram (T q)).map Prod.fst + (s.ram.free : Multiset Page)).Nodup ∧
      ∀ p ∈ bootPages board m₀, s.ram.byte p = m₀.byte p := by
  obtain ⟨T, hT⟩ := h.kept hm hproc
  exact ⟨T, hT.unused, hT.held.shows, hT.held.books.pages, hT.held.books.nodup hm.stocked, hT.held.books.boot⟩

theorem pages_owned_small : ∃ (s : Sys (Fin 2) Unit Unit) (T : Fin 2 → Option Image) (p : Fin 2), T p ≠ none ∧
    (∑ q, owned s.ram (T q)).map Prod.fst + (s.ram.free : Multiset Page) = smallRam.free := by
  obtain ⟨s, p, hs, hp, -⟩ := small_reached
  obtain ⟨T, hunused, -, hpages, -⟩ := pages_owned small_booted (List.cons_ne_nil 0 [1]) hs
  exact ⟨s, T, p, fun hc => hp ((hunused p).mp hc), hpages⟩

/-! ### Page tables -/

omit [DecidableEq ι] [Fintype ι] in
/-- What the hardware finds in a page table below `MAXUVA`. -/
theorem Table.leaf_user {S : Finset (Fin 512)} {f : Nat → Option Pte} {root : Page} {va : Nat} (h : Table S f m root) (hS : usrIdx ⊆ S)
    (hva : va < maxuva) : m.leaf root va = f (va / pgsize) := by
  have hv : va / pgsize < 2 ^ 19 := by
    simp only [pgsize_eq, maxuva] at hva ⊢
    omega
  have hmax : va < maxva := by
    simp only [maxuva, maxva] at hva ⊢
    omega
  have hmap := h.maps (va / pgsize) (by omega) (hS (usrIdx_of_lt hv))
  unfold Ram.leaf
  rw [if_pos hmax, ← find_path m.heap 2 root fun j _ => px_pgrounddown va j]
  exact hmap

/-- The two page tables of a live process map the same pages below `MAXUVA`, all below its size and none above it;
only in the user's table may the user go there, and not to the page below the stack. In its other entries the
kernel's table is the boot's. -/
theorem tables_mirror (hm : Booted board m₀) (hproc : proc ≠ []) (h : Reached board m₀ proc initproc s) (hp : (s.procs p).state ≠ .unused) :
    ∃ u k, (s.procs p).pagetable = some u ∧ (s.procs p).kpagetable = some k ∧
      (∀ va, va < maxuva → va / pgsize < npages (s.procs p).sz → ∃ e, s.ram.leaf u va = some e ∧ s.ram.leaf k va = some e.kern ∧
        e.flags = if (s.procs p).guard = some (va / pgsize) then 15 else 31) ∧
      (∀ va, va < maxuva → npages (s.procs p).sz ≤ va / pgsize → s.ram.leaf u va = none ∧ s.ram.leaf k va = none) ∧
      ∀ j, j ∉ procIdx → s.ram.heap k j = m₀.heap board.kernelPagetable j := by
  obtain ⟨T, hT⟩ := h.kept hm hproc
  obtain ⟨im, hp⟩ := hT.image hp
  obtain ⟨hsh, hfit⟩ := hT.held.shows p im hp
  have huser : ∀ va, va < maxuva → s.ram.leaf im.upt va = im.us[va / pgsize]? := by
    intro va hva
    rw [hfit.user.leaf_user (Finset.subset_univ _) hva, usrMap, if_pos]
    simp only [pgsize_eq, maxuva] at hva ⊢
    omega
  have hkern : ∀ va, va < maxuva → s.ram.leaf im.kpt va = im.us[va / pgsize]?.map Pte.kern := by
    intro va hva
    rw [hfit.kern.leaf_user (Finset.subset_insert _ _) hva, kernMap, if_pos]
    simp only [pgsize_eq, maxuva] at hva ⊢
    omega
  refine ⟨im.upt, im.kpt, hsh.pagetable, hsh.kpagetable, fun va hva hlt => ?_, fun va hva hge => ?_, hfit.row⟩
  · rw [hsh.size] at hlt
    have he := List.getElem?_eq_getElem hlt
    refine ⟨im.us[va / pgsize], ?_, ?_, hsh.flags _ _ he⟩
    · rw [huser va hva, he]
    · rw [hkern va hva, he, Option.map_some]
  · rw [hsh.size] at hge
    have he := List.getElem?_eq_none hge
    rw [huser va hva, hkern va hva, he]
    exact ⟨rfl, rfl⟩

theorem tables_mirror_small : ∃ (s : Sys (Fin 2) Unit Unit) (p : Fin 2) (u k : Page), (s.procs p).pagetable = some u ∧
    (s.procs p).kpagetable = some k ∧ ∀ j, j ∉ procIdx → s.ram.heap k j = smallRam.heap smallBoard.kernelPagetable j := by
  obtain ⟨s, p, hs, hp, -⟩ := small_reached
  obtain ⟨u, k, hu, hk, -, -, hrow⟩ := tables_mirror small_booted (List.cons_ne_nil 0 [1]) hs hp
  exact ⟨s, p, u, k, hu, hk, hrow⟩

/-! ### Calls -/

/-- Whatever a live process calls, no page is freed that is free already or that belongs to the boot's page table,
and the kernel's table never takes a user page with it; the call returns, sleeps or leaves a zombie, or ends in one of
the two panics. -/
theorem calls_safe (hm : Booted board m₀) (hproc : proc ≠ []) (h : Reached board m₀ proc initproc s) (hp : (s.procs p).state ≠ .unused)
    (c : MemCall) (hc : c.Proper) : (c.code board proc initproc p).Steps (SysSound board) s ∧
      ((∃ r s', (c.code board proc initproc p).run s = .done r s' ∧ (r = none → c.Rests p s s')) ∨
        ∃ e, (c.code board proc initproc p).run s = .stopped e ∧ c.Panics proc initproc p s e) := by
  obtain ⟨T, hT⟩ := h.kept hm hproc
  have hends : Comes board (c.Panics proc initproc p s) (c.code board proc initproc p) s _ := comes_call hm hT hp c hc
  refine ⟨hends.steps, hends.run.imp (fun hr => ?_) id⟩
  obtain ⟨r, s', hrun, -, hrest⟩ := hr
  exact ⟨r, s', hrun, hrest⟩

/-- A zombie child is freed. -/
theorem calls_safe_small : ∃ (s s' : Sys (Fin 2) Unit Unit), (s.procs 1).state = .zombie ∧
    ((MemCall.wait 0).code smallBoard [0, 1] 0 0).Steps (SysSound smallBoard) s ∧
      ((MemCall.wait 0).code smallBoard [0, 1] 0 0).run s = .done (some (s.procs 1).pid) s' ∧ s'.procs 1 = (s.procs 1).gone := by
  obtain ⟨s, hs, hp, hz, hparent, horphan⟩ := small_orphaned
  obtain ⟨hsteps, ⟨r, s', hrun, -⟩ | ⟨e, -, he⟩⟩ := calls_safe small_booted (List.cons_ne_nil 0 [1]) hs hp (.wait 0) trivial
  swap
  · exact he.elim
  obtain ⟨T, hT⟩ := hs.kept small_booted (List.cons_ne_nil 0 [1])
  obtain ⟨im, him⟩ := hT.image hp
  have hends : Comes smallBoard (fun _ => False) (wait smallBoard [0, 1] 0 0) s (Waits smallBoard smallRam T 0 0 [0, 1] s) :=
    comes_wait small_booted hT.held him fun _ hq => hT.zombie hq
  obtain ⟨-, -, hno⟩ | ⟨np, m, hpid, hparent', -, -, -, hreap⟩ := hends.of_run hrun
  · exact absurd hz (hno rfl 1 (List.mem_cons_of_mem _ (List.mem_singleton_self 1)) hparent)
  have hnp : np = 1 := by
    refine Fin.eq_one_of_ne_zero np fun hc => ?_
    rw [hc, horphan] at hparent'
    cases hparent'
  subst hnp
  rw [hpid] at hrun
  exact ⟨s, s', hz, hsteps, hrun, hreap.slot⟩

/-- A call of one process leaves the memory of the others alone: their page tables, what is in their pages, their
registers; only a zombie may be gone that was a child, and waited for. -/
theorem calls_isolated {r : Option Int} (hm : Booted board m₀) (hproc : proc ≠ []) (h : Reached board m₀ proc initproc s)
    (hp : (s.procs p).state ≠ .unused) (c : MemCall) (hc : c.Proper) (hrun : (c.code board proc initproc p).run s = .done r s') :
    ∃ T T', Kept board m₀ s T ∧ Kept board m₀ s' T' ∧ Isolated c T T' p s s' := by
  obtain ⟨T, hT⟩ := h.kept hm hproc
  obtain ⟨⟨T', hT', hi⟩, -⟩ := (comes_call hm hT hp c hc).of_run hrun
  exact ⟨T, T', hT, hT', hi⟩

/-- A process grows, and its child keeps what it has. -/
theorem calls_isolated_small : ∃ (s s' : Sys (Fin 2) Unit Unit) (T T' : Fin 2 → Option Image) (im : Image),
    Kept smallBoard smallRam s T ∧ Kept smallBoard smallRam s' T' ∧ T 1 = some im ∧ T' 1 = some im ∧
      Same (im.owned s.ram) s.ram s'.ram := by
  obtain ⟨s, hs, hp, hchild⟩ := small_forked
  have hproper : (MemCall.growproc 1).Proper := ⟨by decide, by decide⟩
  obtain ⟨T, hT⟩ := hs.kept small_booted (List.cons_ne_nil 0 [1])
  have hends : Comes smallBoard (fun _ => False) ((MemCall.growproc 1).code smallBoard [0, 1] 0 0) s _ :=
    comes_call small_booted hT hp (.growproc 1) hproper
  obtain ⟨r, s', hrun, -⟩ := hends.returns
  obtain ⟨T, T', hT, hT', hi⟩ := calls_isolated small_booted (List.cons_ne_nil 0 [1]) hs hp (.growproc 1) hproper hrun
  have hlive : (s.procs 1).state ≠ .unused := by
    rw [hchild]
    exact fun hc => ProcState.noConfusion hc
  obtain ⟨im, him⟩ := hT.image hlive
  obtain ⟨hkept, hsame⟩ | ⟨⟨addr, hwait⟩, -⟩ := hi 1 im (by decide) him
  · exact ⟨s, s', T, T', im, hT, hT', him, hkept, hsame⟩
  · cases hwait

/-! ### fork -/

/-- With a free slot and five to seven free pages `fork` comes to no other end. -/
theorem Kept.comes_fork_strands {T : ι → Option Image} (hm : Booted board m₀) (h : Kept board m₀ s T)
    (hslot : ∃ q ∈ proc, (s.procs q).state = .unused) (hs : Strands s.ram.free.length) :
    Comes board (fun e => e = unmapPanic) (fork board proc p) s fun _ _ => False := by
  have halloc : Comes board (fun e => e = unmapPanic) (allocproc board proc) s _ :=
    comes_allocproc hm h.held (fun q hq => (h.unused q).mpr hq) proc fun _ _ => rfl
  unfold fork
  apply halloc.bind
  intro r s₁ hr
  obtain ⟨hfew, hmany⟩ := hs
  obtain ⟨-, ⟨hall, -⟩ | ⟨hlt, -⟩⟩ | ⟨j, im, -, -, -, hle, -⟩ := hr
  · obtain ⟨q, hq, hu⟩ := hslot
    exact absurd hu (hall q hq)
  · omega
  · omega

/-- `fork` ends in no other panic than that of `vmunmap`, and in this one if and only if a slot of the process table is
free and five, six or seven pages are. -/
theorem fork_panics_iff (hm : Booted board m₀) (hproc : proc ≠ []) (h : Reached board m₀ proc initproc s) (hp : (s.procs p).state ≠ .unused) :
    (∀ e, (fork board proc p).run s = .stopped e → e = unmapPanic) ∧
      ((fork board proc p).run s = .stopped unmapPanic ↔
        (∃ q ∈ proc, (s.procs q).state = .unused) ∧ 5 ≤ s.ram.free.length ∧ s.ram.free.length < 8) := by
  obtain ⟨T, hT⟩ := h.kept hm hproc
  obtain ⟨im, hp⟩ := hT.image hp
  have hstops : ∀ e, (fork board proc p).run s = .stopped e →
      e = unmapPanic ∧ (∃ q ∈ proc, (s.procs q).state = .unused) ∧ Strands s.ram.free.length := by
    intro e hstop
    have hends : Comes board (fun e => e = unmapPanic ∧ (∃ q ∈ proc, (s.procs q).state = .unused) ∧ Strands s.ram.free.length)
        (fork board proc p) s _ := comes_fork hm hT.held (fun q hq => (hT.unused q).mpr hq) hp fun hslot hs => ⟨rfl, hslot, hs⟩
    obtain ⟨r, s', hrun, -⟩ | ⟨e', hrun, he⟩ := hends.run
    · rw [hstop] at hrun
      cases hrun
    · rw [hstop] at hrun
      cases hrun
      exact he
  refine ⟨fun e hstop => (hstops e hstop).1, fun hstop => (hstops _ hstop).2, fun hc => ?_⟩
  obtain ⟨e, hrun, he⟩ := (hT.comes_fork_strands (p := p) hm hc.1 hc.2).stops
  rw [← he]
  exact hrun

/-- With five free pages it does. -/
theorem fork_panics_iff_small : ∃ s : Sys (Fin 2) Unit Unit, (s.procs 0).state ≠ .unused ∧ s.ram.free.length = 5 ∧
    (fork tinyBoard [0, 1] 0).run s = .stopped unmapPanic := by
  obtain ⟨s, hs, hp, hslot, hfree⟩ := tiny_reached
  refine ⟨s, hp, hfree, (fork_panics_iff tiny_booted (List.cons_ne_nil 0 [1]) hs hp).2.mpr ⟨⟨1, ?_, hslot⟩, ?_, ?_⟩⟩
  · exact List.mem_cons_of_mem _ (List.mem_singleton_self 1)
  · rw [hfree]
  · rw [hfree]
    decide

/-- Otherwise `fork` is all or nothing. It returns -1, with every live process, the pages of all of them and the free
pages as before, and then no slot was free or memory was short; or it makes a child with the parent's memory and
registers, but for the one that returns 0. -/
theorem fork_allOrNothing (hm : Booted board m₀) (hproc : proc ≠ []) (h : Reached board m₀ proc initproc s) (hp : (s.procs p).state ≠ .unused)
    (hno : ¬ ((∃ q ∈ proc, (s.procs q).state = .unused) ∧ 5 ≤ s.ram.free.length ∧ s.ram.free.length < 8)) :
    ∃ T parent, Kept board m₀ s T ∧ T p = some parent ∧ ∃ r s', (fork board proc p).run s = .done r s' ∧
      ((r = -1 ∧ ((∀ q ∈ proc, (s.procs q).state ≠ .unused) ∨ s.ram.free.length < 8 + 5 * npages (s.procs p).sz) ∧
          Held board m₀ s' T ∧ Same (∑ q, owned s.ram (T q)) s.ram s'.ram ∧ s'.ram.free.Perm s.ram.free ∧
          ∀ q, (s.procs q).state ≠ .unused → s'.procs q = s.procs q) ∨
        (r = s.nextpid ∧ ∃ j child, j ∈ proc ∧ (s.procs j).state = .unused ∧ Forked board m₀ T p j parent child s s')) := by
  obtain ⟨T, hT⟩ := h.kept hm hproc
  obtain ⟨im, hp⟩ := hT.image hp
  refine ⟨T, im, hT, hp, ?_⟩
  have hends : Comes board (fun _ => False) (fork board proc p) s _ :=
    comes_fork hm hT.held (fun q hq => (hT.unused q).mpr hq) hp fun hslot hs => hno ⟨hslot, hs⟩
  obtain ⟨r, s', hrun, hr⟩ := hends.returns
  refine ⟨r, s', hrun, ?_⟩
  obtain ⟨rfl, ⟨hall, rfl⟩ | ⟨hshort, j, -, hu, hd⟩⟩ | ⟨j, child, hr, hmade⟩ := hr
  · exact .inl ⟨rfl, .inl hall, hT.held, Same.refl _ _, List.Perm.refl _, fun _ _ => rfl⟩
  · refine .inl ⟨rfl, .inr ?_, hd.held, hd.same, ?_, fun q hq => hd.others q fun hc => hq (hc ▸ hu)⟩
    · rw [(hT.held.shows p im hp).1.size]
      exact hshort
    · have hsum := hT.held.sum_same hd.same
      have hb := hd.held.books
      rw [hsum] at hb
      exact hT.held.books.free_perm hb
  · exact .inr ⟨hr, j, child, hmade⟩

theorem fork_allOrNothing_small : ∃ (s : Sys (Fin 2) Unit Unit) (p : Fin 2) (r : Int) (s' : Sys (Fin 2) Unit Unit),
    (fork smallBoard [0, 1] p).run s = .done r s' ∧ (r = -1 ∨ r = s.nextpid) := by
  obtain ⟨s, p, hs, hp, hfree⟩ := small_reached
  obtain ⟨T, parent, -, -, r, s', hrun, hr⟩ := fork_allOrNothing small_booted (List.cons_ne_nil 0 [1]) hs hp (by omega)
  exact ⟨s, p, r, s', hrun, hr.imp And.left And.left⟩

/-! ### What a file describes -/

section File
variable {file : Contents} {x y : Flat} {ph : Proghdr} {off n a : Nat}

/-- The program headers of a file, one behind another. -/
def Flat.headers (file : Contents) : Nat → Nat → List Proghdr
  | 0, _ => []
  | n + 1, off => phdrAt file off :: headers file n (off + proghdrSz)

/-- The byte at an address is one of the segment's bytes of the file. -/
def Proghdr.Covers (ph : Proghdr) (a : Nat) : Prop := ph.type = elfProgLoad ∧ ph.vaddr ≤ a ∧ a < ph.vaddr + u32 ph.filesz

/-- Where the loadable segments end that begin with one of `n` bytes; with none, where they did. -/
def Proghdr.reach (n : Nat) (ph : Proghdr) : Nat := if ph.type = elfProgLoad then max n (ph.vaddr + ph.memsz) else n

/-- Where the last of the loadable segments ends. -/
def Flat.top (headers : List Proghdr) : Nat := headers.foldl Proghdr.reach 0

/-- One segment: where it covers, its bytes of the file; elsewhere, what was there. -/
theorem Flat.segment_spec (h : x.segment file ph = some y) :
    x.size ≤ y.size ∧ (ph.type = elfProgLoad → ph.Fine file ∧ ph.vaddr + ph.memsz ≤ y.size) ∧
      (ph.Covers a → y.bytes a = bytesOf file (u32 ph.off + (a - ph.vaddr))) ∧ (¬ ph.Covers a → y.bytes a = x.bytes a) := by
  unfold Flat.segment at h
  by_cases htype : ph.type = elfProgLoad
  · rw [if_neg fun hc => hc htype] at h
    by_cases hfine : ph.Fine file ∧ (x.load file ph).size ≠ 0
    · rw [if_pos hfine] at h
      cases h
      refine ⟨Nat.le_max_left _ _, fun _ => ⟨hfine.1, Nat.le_max_right _ _⟩, fun hc => ?_, fun hc => ?_⟩
      · show overwrite ph.vaddr (u32 ph.filesz) (fun i => bytesOf file (u32 ph.off + i)) x.bytes a = _
        rw [overwrite_in _ _ hc.2.1 hc.2.2]
      · show overwrite ph.vaddr (u32 ph.filesz) (fun i => bytesOf file (u32 ph.off + i)) x.bytes a = _
        apply overwrite_out
        by_cases hlow : a < ph.vaddr
        · exact .inl hlow
        · exact .inr (Nat.le_of_not_lt fun hlt => hc ⟨htype, Nat.le_of_not_lt hlow, hlt⟩)
    · rw [if_neg hfine] at h
      cases h
  · rw [if_pos htype] at h
    cases h
    exact ⟨Nat.le_refl _, fun hc => absurd hc htype, fun hc => absurd hc.1 htype, fun _ => rfl⟩

theorem Flat.segment_size (h : x.segment file ph = some y) : y.size = ph.reach x.size := by
  unfold Flat.segment at h
  unfold Proghdr.reach
  by_cases htype : ph.type = elfProgLoad
  · rw [if_neg fun hc => hc htype] at h
    obtain ⟨-, h⟩ := Option.ite_none_right_eq_some.mp h
    cases h
    rw [if_pos htype]
    rfl
  · rw [if_pos htype] at h
    cases h
    rw [if_neg htype]

theorem Flat.segments_cons (h : Flat.segments file (n + 1) off x = some y) :
    ∃ z, x.segment file (phdrAt file off) = some z ∧ Flat.segments file n (off + proghdrSz) z = some y := by
  unfold Flat.segments at h
  by_cases hin : InFile file off proghdrSz
  · rw [if_pos hin] at h
    exact Option.bind_eq_some_iff.mp h
  · rw [if_neg hin] at h
    cases h

/-- An address that no segment covers keeps its byte, and the size only grows. -/
theorem Flat.segments_other (h : Flat.segments file n off x = some y) (ha : ∀ ph ∈ Flat.headers file n off, ¬ ph.Covers a) :
    y.bytes a = x.bytes a := by
  induction n generalizing off x with
  | zero =>
    cases h
    rfl
  | succ n ih =>
    obtain ⟨z, hz, hrest⟩ := Flat.segments_cons h
    rw [ih hrest fun ph hph => ha ph (List.mem_cons_of_mem _ hph)]
    exact (Flat.segment_spec hz).2.2.2 (ha _ List.mem_cons_self)

theorem Flat.segments_size (h : Flat.segments file n off x = some y) :
    x.size ≤ y.size ∧ ∀ ph ∈ Flat.headers file n off, ph.type = elfProgLoad → ph.Fine file ∧ ph.vaddr + ph.memsz ≤ y.size := by
  induction n generalizing off x with
  | zero =>
    cases h
    exact ⟨Nat.le_refl _, fun ph hph => absurd hph List.not_mem_nil⟩
  | succ n ih =>
    obtain ⟨z, hz, hrest⟩ := Flat.segments_cons h
    obtain ⟨hgrown, hall⟩ := ih hrest
    obtain ⟨hz', hfirst, -⟩ := Flat.segment_spec (a := 0) hz
    refine ⟨hz'.trans hgrown, fun ph hph htype => ?_⟩
    rcases List.mem_cons.mp hph with heq | hmem
    · rw [heq] at htype ⊢
      obtain ⟨hfine, hle⟩ := hfirst htype
      exact ⟨hfine, hle.trans hgrown⟩
    · exact hall ph hmem htype

theorem Flat.segments_top (h : Flat.segments file n off x = some y) : y.size = (Flat.headers file n off).foldl Proghdr.reach x.size := by
  induction n generalizing off x with
  | zero =>
    cases h
    rfl
  | succ n ih =>
    obtain ⟨z, hz, hrest⟩ := Flat.segments_cons h
    rw [ih hrest, Flat.segment_size hz]
    rfl

/-- The last segment that covers an address gives its byte. -/
theorem Flat.segments_covered {i : Nat} (h : Flat.segments file n off x = some y) (hi : (Flat.headers file n off)[i]? = some ph)
    (hc : ph.Covers a) (hlast : ∀ (j : Nat) (ph' : Proghdr), i < j → (Flat.headers file n off)[j]? = some ph' → ¬ ph'.Covers a) :
    y.bytes a = bytesOf file (u32 ph.off + (a - ph.vaddr)) := by
  induction n generalizing off x i with
  | zero => cases hi
  | succ n ih =>
    obtain ⟨z, hz, hrest⟩ := Flat.segments_cons h
    cases i with
    | zero =>
      cases hi
      rw [Flat.segments_other hrest fun ph' hph' => ?_]
      · exact (Flat.segment_spec hz).2.2.1 hc
      · obtain ⟨j, hj⟩ := List.mem_iff_getElem?.mp hph'
        exact hlast (j + 1) ph' (Nat.succ_pos j) hj
    | succ i => exact ih hrest hi fun j ph' hij hj => hlast (j + 1) ph' (Nat.succ_lt_succ hij) hj

end File

/-! ### exec -/

theorem Reached.exec_returns (hm : Booted board m₀) (hproc : proc ≠ []) (h : Reached board m₀ proc initproc s)
    (hp : (s.procs p).state ≠ .unused) (path : CString) (file : Option Contents) {argv : List CString} (hargs : ∀ a ∈ argv, a.length < pgsize) :
    ∃ T im, Kept board m₀ s T ∧ T p = some im ∧ ∃ r s', (exec board p path file argv).run s = .done r s' ∧
      Execs board m₀ T p im path file argv s r s' := by
  obtain ⟨T, hT⟩ := h.kept hm hproc
  obtain ⟨im, hp⟩ := hT.image hp
  have hends : Comes board (fun _ => False) (exec board p path file argv) s _ := comes_exec hm hargs hT.held hp
  obtain ⟨r, s', hrun, hr⟩ := hends.returns
  exact ⟨T, im, hT, hp, r, s', hrun, hr⟩

theorem stack_isSome (x : Flat) (argv : List CString) : (x.stack argv).isSome ↔ argv.length ≤ maxarg ∧ Stacked.argRoom argv ≤ pgsize := by
  apply Stacked.ofArgs_isSome
  · exact Nat.mul_pos (Nat.succ_pos _) (by decide)
  · simp only [pgsize_eq]
    omega

/-- `exec` is all or nothing. It returns -1, with every process, every page of one and the free pages as before; or
the process has become the program of the file. It does, if the file describes a memory, the arguments fit on the
stack, and five pages for each page of that memory are free, and fourteen besides. -/
theorem exec_allOrNothing {file : Option Contents} {argv : List CString} (hm : Booted board m₀) (hproc : proc ≠ [])
    (h : Reached board m₀ proc initproc s) (hp : (s.procs p).state ≠ .unused) (hargs : ∀ a ∈ argv, a.length < pgsize) (path : CString) :
    ∃ T im, Kept board m₀ s T ∧ T p = some im ∧ ∃ r s', (exec board p path file argv).run s = .done r s' ∧
      ((r = -1 ∧ Unchanged board m₀ T s s' ∧ ∀ x, Flat.ofPath file = some x → argv.length ≤ maxarg → Stacked.argRoom argv ≤ pgsize →
          s.ram.free.length < 14 + 5 * npages x.size) ∨
        (r = argv.length ∧ ∃ new x y, Flat.ofPath file = some x ∧ x.stack argv = some y ∧
          Executed board m₀ T p im new path (entryOf file) x y s s')) := by
  obtain ⟨T, im, hT, hp, r, s', hrun, hr⟩ := h.exec_returns hm hproc hp path file hargs
  refine ⟨T, im, hT, hp, r, s', hrun, ?_⟩
  obtain ⟨hr, hu, hno⟩ | ⟨new, x, y, hr, hx, hy, he⟩ := hr
  · exact .inl ⟨hr, hu, fun x hx hfew hroom => hno x hx ((stack_isSome x argv).mpr ⟨hfew, hroom⟩)⟩
  · exact .inr ⟨hr, new, x, y, hx, hy, he⟩

/-- One segment of eight bytes, four of them in the file. -/
def smallFile : Contents :=
  [0x7f, 0x45, 0x4c, 0x46] ++ List.replicate 28 0 ++ [64] ++ List.replicate 23 0 ++ [1] ++ List.replicate 7 0 ++
    [1] ++ List.replicate 7 0 ++ [120] ++ List.replicate 23 0 ++ [4] ++ List.replicate 7 0 ++ [8] ++ List.replicate 15 0 ++ [0x13, 0, 0, 0]

theorem small_flat : ∃ x, Flat.ofPath (some smallFile) = some x ∧ npages x.size = 1 := by
  have hsize : (Flat.ofFile smallFile).map Flat.size = some 8 := by decide +kernel
  obtain ⟨x, hx, hsize⟩ := Option.map_eq_some_iff.mp hsize
  refine ⟨x, ?_, ?_⟩
  · rw [Flat.ofPath, Option.bind_some, hx]
  · rw [hsize]
    rfl

/-- `ls /`. -/
def smallArgs : List CString := [[0x6c, 0x73], [0x2f]]

theorem small_args : ∀ a ∈ smallArgs, a.length < pgsize :=
  List.forall_mem_cons.mpr ⟨by decide, List.forall_mem_singleton.mpr (by decide)⟩

/-- The first process runs the file, and has three pages then, the second of which is the one below the stack. -/
theorem small_exec : ∃ (s s' : Sys (Fin 2) Unit Unit) (p : Fin 2) (r : Int), Reached smallBoard smallRam [0, 1] 0 s ∧
    (s.procs p).state ≠ .unused ∧ (exec smallBoard p [] (some smallFile) smallArgs).run s = .done r s' ∧ r = 2 ∧
      Reached smallBoard smallRam [0, 1] 0 s' ∧ (s'.procs p).state ≠ .unused ∧ (s'.procs p).sz = 3 * pgsize ∧
      (s'.procs p).guard = some 1 := by
  obtain ⟨s, p, hs, hp, hfree⟩ := small_reached
  obtain ⟨T, im, -, -, r, s', hrun, hr⟩ := hs.exec_returns small_booted (List.cons_ne_nil 0 [1]) hp [] (some smallFile) small_args
  obtain ⟨x, hx, hpages⟩ := small_flat
  obtain ⟨-, -, hno⟩ | ⟨new, x', y, rfl, hx', -, he⟩ := hr
  · have hshort := hno x hx ((stack_isSome x smallArgs).mpr ⟨by decide, by decide⟩)
    omega
  cases hx.symm.trans hx'
  have hcall := hs.call p (.exec [] (some smallFile) smallArgs) hp small_args (Prog.run_bind_done hrun fun argc => pure (some argc))
  have hslot := he.slot
  rw [he.pages, hpages] at hslot
  refine ⟨s, s', p, _, hs, hp, hrun, rfl, hcall, ?_, ?_, ?_⟩
  · rw [hslot]
    exact hp
  · rw [hslot]
  · rw [hslot]

theorem exec_allOrNothing_small : ∃ (s s' : Sys (Fin 2) Unit Unit) (p : Fin 2) (r : Int),
    (exec smallBoard p [] (some smallFile) smallArgs).run s = .done r s' ∧ r = smallArgs.length := by
  obtain ⟨s, s', p, r, hs, hp, hrun, hr, -⟩ := small_exec
  obtain ⟨T, im, -, -, r', s'', hrun', hcase⟩ := exec_allOrNothing small_booted (List.cons_ne_nil 0 [1]) hs hp small_args []
  cases hrun.symm.trans hrun'
  obtain ⟨hneg, -⟩ | ⟨hlen, -⟩ := hcase
  · rw [hr] at hneg
    exact absurd hneg (by decide)
  · exact ⟨s, s', p, r, hrun, hlen⟩

section Executed
variable {T : ι → Option Image} {im new : Image} {path : CString} {file : Contents} {argv : List CString} {entry : Nat} {x : Flat} {y : Stacked}

/-- The stack of a new program, in the last of its pages. -/
theorem Executed.arranged (hm : Booted board m₀) (he : Executed board m₀ T p im new path entry x y s s') (hy : x.stack argv = some y) :
    Stacked.Arranged ((npages x.size + 1) * pgsize) x.bytes argv y := by
  obtain ⟨hfew, -, -⟩ := Held.small hm.stocked he.held (Function.update_self p (some new) T)
  have hpages := he.pages
  apply Stacked.ofArgs_arranged
  · exact Nat.mul_pos (Nat.succ_pos _) (by decide)
  · simp only [pgsize_eq]
    omega
  · simp only [pgsize_eq]
    omega
  · exact hy

/-- Below the stack there is what the file describes. -/
theorem Executed.below (hm : Booted board m₀) (he : Executed board m₀ T p im new path entry x y s s') (hy : x.stack argv = some y) {a : Nat}
    (ha : a < (npages x.size + 1) * pgsize) : userByte s'.ram new.us a = x.bytes a := by
  have harr := he.arranged hm hy
  rw [he.bytes]
  exact harr.other a (.inl (Nat.lt_of_lt_of_le ha harr.above))

end Executed

theorem Flat.ofFile_segments {file : Contents} {x : Flat} (h : Flat.ofFile file = some x) :
    Flat.segments file (Elfhdr.of (bytesOf file)).phnum (u32 (Elfhdr.of (bytesOf file)).phoff) .empty = some x := by
  unfold Flat.ofFile at h
  dsimp only at h
  split at h
  next => exact h
  next => cases h

theorem le_npages_mul (n : Nat) : n ≤ npages n * pgsize := by
  unfold npages
  simp only [pgsize_eq]
  omega

/-- After a successful `exec` the memory of the process is what the headers of the file say. Each segment lies in it
and in the file; an address that segments cover holds the byte of the last one of them, at the segment's offset of the
file, taken as 32 bits; every other address below the stack holds zero. The memory ends exactly two pages above the
segments, with the page below the stack, where the user may not go, and the page of the stack, where he may. -/
theorem exec_loads {file : Contents} {argv : List CString} {path : CString} {r : Int} (hm : Booted board m₀) (hproc : proc ≠ [])
    (h : Reached board m₀ proc initproc s) (hp : (s.procs p).state ≠ .unused) (hargs : ∀ a ∈ argv, a.length < pgsize)
    (hrun : (exec board p path (some file) argv).run s = .done r s') (hr : 0 ≤ r) :
    ∃ T new headers, headers = Flat.headers file (Elfhdr.of (bytesOf file)).phnum (u32 (Elfhdr.of (bytesOf file)).phoff) ∧
      Held board m₀ s' T ∧ T p = some new ∧ (s'.procs p).sz = new.us.length * pgsize ∧
      new.us.length = npages (Flat.top headers) + 2 ∧ (s'.procs p).guard = some (npages (Flat.top headers)) ∧
      (∃ e, new.us[npages (Flat.top headers)]? = some e ∧ isUser e.flags = false) ∧
      (∃ e, new.us[npages (Flat.top headers) + 1]? = some e ∧ isUser e.flags = true) ∧
      (∀ ph ∈ headers, ph.type = elfProgLoad → ph.Fine file ∧ ph.vaddr + ph.memsz ≤ (new.us.length - 2) * pgsize) ∧
      (∀ (i a : Nat) (ph : Proghdr), headers[i]? = some ph → ph.Covers a →
        (∀ (j : Nat) (ph' : Proghdr), i < j → headers[j]? = some ph' → ¬ ph'.Covers a) →
        userByte s'.ram new.us a = bytesOf file (u32 ph.off + (a - ph.vaddr))) ∧
      ∀ a, a < (new.us.length - 1) * pgsize → (∀ ph ∈ headers, ¬ ph.Covers a) → userByte s'.ram new.us a = 0 := by
  obtain ⟨T, im, -, -, r', s'', hrun', hcase⟩ := h.exec_returns hm hproc hp path (some file) hargs
  rw [hrun] at hrun'
  cases hrun'
  obtain ⟨hr', -⟩ | ⟨new, x, y, -, hx, hy, he⟩ := hcase
  · omega
  have hsegments := Flat.ofFile_segments hx
  obtain ⟨-, hsize⟩ := Flat.segments_size hsegments
  have htop : x.size = Flat.top _ := Flat.segments_top hsegments
  have hpages : new.us.length - 2 = npages x.size ∧ new.us.length - 1 = npages x.size + 1 := by
    have := he.pages
    omega
  have hle := le_npages_mul x.size
  have hguard : (s'.procs p).guard = some (npages x.size) := by rw [he.slot]
  have hflag : ∀ v, v < new.us.length → ∃ e, new.us[v]? = some e ∧ e.flags = if some (npages x.size) = some v then 15 else 31 := by
    intro v hv
    refine ⟨new.us[v], List.getElem?_eq_getElem hv, ?_⟩
    rw [(he.held.shows p new (Function.update_self _ _ _)).1.flags v _ (List.getElem?_eq_getElem hv), hguard]
  refine ⟨_, new, _, rfl, he.held, Function.update_self _ _ _, ?_, htop ▸ he.pages, htop ▸ hguard, ?_, ?_, fun ph hph htype => ?_,
    fun i a ph hi hc hlast => ?_, fun a ha hno => ?_⟩
  · rw [he.slot]
  · obtain ⟨e, hget, hflags⟩ := hflag (npages x.size) (by omega)
    rw [if_pos rfl] at hflags
    exact ⟨e, htop ▸ hget, by rw [hflags]; decide⟩
  · obtain ⟨e, hget, hflags⟩ := hflag (npages x.size + 1) (by omega)
    rw [if_neg fun hc => Nat.succ_ne_self _ (Option.some.inj hc).symm] at hflags
    exact ⟨e, htop ▸ hget, by rw [hflags]; decide⟩
  · obtain ⟨hfine, hfit⟩ := hsize ph hph htype
    rw [hpages.1]
    exact ⟨hfine, hfit.trans hle⟩
  · obtain ⟨hfine, hfit⟩ := hsize ph (List.mem_of_getElem? hi) hc.1
    rw [he.below hm hy ?_]
    · exact Flat.segments_covered hsegments hi hc hlast
    · have hfilesz : u32 ph.filesz ≤ ph.filesz := Nat.mod_le _ _
      have hmemsz := hfine.1
      have hlt := hc.2.2
      simp only [pgsize_eq] at hle ⊢
      omega
  · rw [hpages.2] at ha
    rw [he.below hm hy ha]
    exact Flat.segments_other hsegments hno

/-- The segment's byte, the zeros behind its part of the file, and the two pages above. -/
theorem exec_loads_small : ∃ (s' : Sys (Fin 2) Unit Unit) (p : Fin 2) (new : Image), (s'.procs p).sz = new.us.length * pgsize ∧
    new.us.length = 3 ∧ (s'.procs p).guard = some 1 ∧ userByte s'.ram new.us 0 = 0x13 ∧ userByte s'.ram new.us 4 = 0 := by
  obtain ⟨s, s', p, r, hs, hp, hrun, hr, -⟩ := small_exec
  obtain ⟨T, new, headers, rfl, -, -, hsz, hlen, hguard, -, -, -, hcovered, hzero⟩ := exec_loads small_booted (List.cons_ne_nil 0 [1]) hs hp
    small_args hrun (by rw [hr]; decide)
  have hheaders : Flat.headers smallFile (Elfhdr.of (bytesOf smallFile)).phnum (u32 (Elfhdr.of (bytesOf smallFile)).phoff) =
      [phdrAt smallFile 64] := rfl
  rw [hheaders] at hlen hguard hcovered hzero
  have htop : npages (Flat.top [phdrAt smallFile 64]) = 1 := by decide
  rw [htop] at hlen hguard
  refine ⟨s', p, new, hsz, hlen, hguard, ?_, hzero 4 ?_ (List.forall_mem_singleton.mpr fun hc => absurd hc.2.2 (by decide))⟩
  · rw [hcovered 0 0 (phdrAt smallFile 64) rfl ⟨by decide, by decide, by decide⟩ fun j ph' hj hph' => ?_]
    · decide
    · obtain ⟨j, rfl⟩ := Nat.exists_eq_succ_of_ne_zero (Nat.pos_iff_ne_zero.mp hj)
      cases hph'
  · rw [hlen]
    decide

/-- After a successful `exec` the stack pointer, which is also the second argument of `main`, is a multiple of 16 in the
last page; there is the array of pointers, ended by a null pointer, and each points to its string, with the NUL behind
it; the program counter is at the entry. All of it fits into the page, and `exec` returns the number of strings. -/
theorem exec_stack {file : Contents} {argv : List CString} {path : CString} {r : Int} (hm : Booted board m₀) (hproc : proc ≠ [])
    (h : Reached board m₀ proc initproc s) (hp : (s.procs p).state ≠ .unused) (hargs : ∀ a ∈ argv, a.length < pgsize)
    (hrun : (exec board p path (some file) argv).run s = .done r s') (hr : 0 ≤ r) :
    ∃ T new y b c, Held board m₀ s' T ∧ T p = some new ∧ r = argv.length ∧ argv.length ≤ maxarg ∧ Stacked.argRoom argv ≤ pgsize ∧
      Stacked.Arranged ((new.us.length - 1) * pgsize) b argv y ∧ userByte s'.ram new.us = y.bytes ∧
      s'.ram.byte new.tf = putWord64 tfSp y.sp (putWord64 tfEpc (Elfhdr.of (bytesOf file)).entry (putWord64 tfA1 y.sp c)) := by
  obtain ⟨T, im, -, -, r', s'', hrun', hcase⟩ := h.exec_returns hm hproc hp path (some file) hargs
  rw [hrun] at hrun'
  cases hrun'
  obtain ⟨hr', -⟩ | ⟨new, x, y, hr', -, hy, he⟩ := hcase
  · omega
  have hpages : new.us.length - 1 = npages x.size + 1 := by
    have := he.pages
    omega
  have hfits := (stack_isSome x argv).mp (by rw [hy]; rfl)
  refine ⟨_, new, y, x.bytes, s.ram.byte im.tf, he.held, Function.update_self _ _ _, hr', hfits.1, hfits.2, ?_, he.bytes, ?_⟩
  · rw [hpages]
    exact he.arranged hm hy
  · rw [he.kept.1]
    exact he.registers

theorem exec_stack_small : ∃ (s' : Sys (Fin 2) Unit Unit) (new : Image) (y : Stacked) (b c : Nat → Byte),
    Stacked.Arranged ((new.us.length - 1) * pgsize) b smallArgs y ∧ userByte s'.ram new.us = y.bytes ∧
      s'.ram.byte new.tf = putWord64 tfSp y.sp (putWord64 tfEpc 0 (putWord64 tfA1 y.sp c)) := by
  obtain ⟨s, s', p, r, hs, hp, hrun, hr, -⟩ := small_exec
  obtain ⟨T, new, y, b, c, -, -, -, -, -, harr, hbytes, hregisters⟩ := exec_stack small_booted (List.cons_ne_nil 0 [1]) hs hp
    small_args hrun (by rw [hr]; decide)
  have hentry : (Elfhdr.of (bytesOf smallFile)).entry = 0 := by decide
  rw [hentry] at hregisters
  exact ⟨s', new, y, b, c, harr, hbytes, hregisters⟩

/-! ### growproc and wait -/

/-- `growproc` leaves the pages that stay, and what is in them; pages that come are zero, pages that go are the last
ones. A request to take away more than there is changes nothing. -/
theorem growproc_resizes {n : Int} (hm : Booted board m₀) (hproc : proc ≠ []) (h : Reached board m₀ proc initproc s)
    (hp : (s.procs p).state ≠ .unused) (hn : -2 ^ 31 ≤ n) (hn' : n < 2 ^ 31) :
    ∃ T im us, T p = some im ∧ Kept board m₀ s T ∧ ∃ r s', (growproc board p n).run s = .done r s' ∧ Resized board m₀ T p im us s s' ∧
      ((r = -1 ∧ 0 < n ∧ us = im.us ∧ s'.procs = s.procs) ∨
        (r = 0 ∧ us.length = npages (newSize (s.procs p).sz n) ∧ (s'.procs p).sz = newSize (s.procs p).sz n)) := by
  obtain ⟨T, hT⟩ := h.kept hm hproc
  obtain ⟨im, hp⟩ := hT.image hp
  have hends : Comes board (fun _ => False) (growproc board p n) s _ :=
    comes_growproc hm.stocked hT.held hp (fun g hg => hT.guard p im g hp hg) hn hn'
  obtain ⟨r, s', hrun, us, hr, hcase⟩ := hends.returns
  refine ⟨T, im, us, hp, hT, r, s', hrun, hr, hcase.imp id fun hgood => ?_⟩
  obtain ⟨hr, hlen, hslot⟩ := hgood
  refine ⟨hr, hlen, ?_⟩
  rw [hslot]
  rfl

theorem growproc_resizes_small : ∃ (s s' : Sys (Fin 2) Unit Unit) (p : Fin 2) (r : Int),
    (growproc smallBoard p 1).run s = .done r s' ∧ (r = -1 ∨ r = 0) := by
  obtain ⟨s, p, hs, hp, -⟩ := small_reached
  obtain ⟨_, _, _, -, -, r, s', hrun, -, hr⟩ := growproc_resizes small_booted (List.cons_ne_nil 0 [1]) hs hp
    (by decide : (-2 ^ 31 : Int) ≤ 1) (by decide)
  exact ⟨s, s', p, r, hrun, hr.imp And.left And.left⟩

/-- `wait` never stops halfway. It goes to sleep or gives up with nothing changed, which it does only for want of a zombie
child if it has no status to write, or it frees a child that was a zombie and returns its pid; then every page of the child is free again, and no other process has another one. -/
theorem wait_reaps {addr : Nat} (hm : Booted board m₀) (hproc : proc ≠ []) (h : Reached board m₀ proc initproc s)
    (hp : (s.procs p).state ≠ .unused) : ∃ T r s', Kept board m₀ s T ∧ (wait board proc p addr).run s = .done r s' ∧
      (((r = none ∨ r = some (-1)) ∧ s' = s ∧
          (addr = 0 → ∀ q ∈ proc, (s.procs q).parent = some p → (s.procs q).state ≠ .zombie)) ∨
        ∃ np im, r = some (s.procs np).pid ∧ (s.procs np).parent = some p ∧ (s.procs np).state = .zombie ∧ T np = some im ∧
          Kept board m₀ s' (Function.update T np none) ∧ s'.procs np = (s.procs np).gone ∧ (∀ q, q ≠ np → s'.procs q = s.procs q) ∧
          s'.ram.free.length = s.ram.free.length + (im.owned s.ram).card) := by
  obtain ⟨T, hT⟩ := h.kept hm hproc
  obtain ⟨im, hp⟩ := hT.image hp
  have hends : Comes board (fun _ => False) (wait board proc p addr) s _ := comes_wait hm hT.held hp fun _ hq => hT.zombie hq
  obtain ⟨r, s', hrun, hr⟩ := hends.returns
  refine ⟨T, r, s', hT, hrun, ?_⟩
  obtain hnone | ⟨np, m, hr, hparent, hz, ht, hs, hreap⟩ := hr
  · exact .inl hnone
  obtain ⟨imn, hnp⟩ := hT.zombie hz
  refine .inr ⟨np, imn, hr, hparent, hz, hnp, hT.reaped hreap, hreap.slot, hreap.others, ?_⟩
  -- the books of the two states, by the number of their pages
  have hcount := hT.held.books.length
  have hcount' := hreap.held.books.length
  rw [sum_rest s.ram T np, hnp, owned_some, Multiset.card_add] at hcount
  rw [sum_rest s'.ram _ np, Function.update_self, rest_update, owned_none, zero_add] at hcount'
  have hrest : rest s'.ram T np = rest s.ram T np := by
    rw [(hT.held.touched ht).rest_eq hreap.same]
    exact Finset.sum_congr rfl fun q _ => hT.held.touched_owned ht q
  rw [hrest] at hcount'
  omega

theorem wait_reaps_small : ∃ (s s' : Sys (Fin 2) Unit Unit) (np : Fin 2), (s.procs 1).state = .zombie ∧
    (wait smallBoard [0, 1] 0 0).run s = .done (some (s.procs np).pid) s' ∧ (s.procs np).parent = some 0 ∧
      s'.procs np = (s.procs np).gone ∧ s.ram.free.length ≤ s'.ram.free.length := by
  obtain ⟨s, hs, hp, hz, hparent, -⟩ := small_orphaned
  obtain ⟨T, r, s', -, hrun, ⟨-, -, hno⟩ | ⟨np, im, rfl, hnp, -, -, -, hgone, -, hfree⟩⟩ :=
    wait_reaps small_booted (List.cons_ne_nil 0 [1]) hs hp
  · exact absurd hz (hno rfl 1 (List.mem_cons_of_mem _ (List.mem_singleton_self 1)) hparent)
  · exact ⟨s, s', np, hz, hrun, hnp, hgone, by omega⟩

/-! ### The first process -/

/-- From what the boot leaves, `userinit` makes the first process, with a page that holds its program. -/
theorem userinit_first (hm : Booted board m₀) (hproc : proc ≠ []) (fs : φ) (name : List Byte) :
    ∃ s : Sys ι φ ε, (userinit board proc).run (boot m₀ fs name) = .done () s ∧ ∃ j im, First board m₀ s j im := by
  have hends : Comes board (fun _ => False) (userinit board proc) (boot m₀ fs name : Sys ι φ ε) _ := comes_userinit hm fs name hproc
  obtain ⟨_, s, hrun, hfirst⟩ := hends.returns
  exact ⟨s, hrun, hfirst⟩

theorem userinit_first_small : ∃ s : Sys (Fin 2) Unit Unit, (userinit smallBoard [0, 1]).run (boot smallRam () []) = .done () s ∧
    ∃ j im, First smallBoard smallRam s j im :=
  userinit_first small_booted (List.cons_ne_nil 0 [1]) () []

/-! ### Copying -/

/-- The two ways to copy between the kernel and the user. The fast one, through the kernel's page table, succeeds if and
only if the range lies below the size of the process. Then the one that walks the user's page table leaves the
same memory, unless the range meets the page below the stack: there it fails. -/
theorem copies_agree {len : Nat} (hm : Booted board m₀) (hproc : proc ≠ []) (h : Reached board m₀ proc initproc s)
    (hp : (s.procs p).state ≠ .unused) (hlen : len < 2 ^ 63) (va o : Nat) (src : Nat → Byte) :
    ∃ u k, (s.procs p).pagetable = some u ∧ (s.procs p).kpagetable = some k ∧
      (¬ Inside (s.procs p).sz va len → (copyin2 (s.procs p).sz k (.kern o) va len).run s.ram = .done (-1) s.ram ∧
        (copyout2 (s.procs p).sz k va src len).run s.ram = .done (-1) s.ram) ∧
      (Inside (s.procs p).sz va len → ∃ m₁ m₂, (copyin2 (s.procs p).sz k (.kern o) va len).run s.ram = .done 0 m₁ ∧
        (copyout2 (s.procs p).sz k va src len).run s.ram = .done 0 m₂ ∧
        ((∀ i, i < len → (s.procs p).guard ≠ some ((va + i) / pgsize)) →
          (copyin u (.kern o) va len).run s.ram = .done 0 m₁ ∧ (copyout u va src len).run s.ram = .done 0 m₂) ∧
        ((∃ i, i < len ∧ (s.procs p).guard = some ((va + i) / pgsize)) →
          (∃ m', (copyin u (.kern o) va len).run s.ram = .done (-1) m') ∧ ∃ m', (copyout u va src len).run s.ram = .done (-1) m')) := by
  obtain ⟨T, hT⟩ := h.kept hm hproc
  obtain ⟨im, hp⟩ := hT.image hp
  have hsh := (hT.held.shows p im hp).1
  have hmap := hT.held.mapping hm.stocked hp
  have hG := sound_allows hm.stocked
  have hin2 : (copyin2 (s.procs p).sz im.kpt (.kern o) va len).Ends (Sound board) (fun _ => False) s.ram _ :=
    ends_copyin2 hG hmap trivial hsh.size hlen
  have hout2 : (copyout2 (s.procs p).sz im.kpt va src len).Ends (Sound board) (fun _ => False) s.ram _ :=
    ends_copyout2 hG hmap hsh.size hlen
  obtain ⟨r₁, m₁, hrun₁, h₁⟩ := hin2.returns
  obtain ⟨r₂, m₂, hrun₂, h₂⟩ := hout2.returns
  refine ⟨im.upt, im.kpt, hsh.pagetable, hsh.kpagetable, fun hno => ?_, fun hinside => ⟨m₁, m₂, ?_⟩⟩
  · obtain ⟨-, hin, -⟩ | ⟨rfl, -, rfl⟩ := h₁
    · exact absurd hin hno
    obtain ⟨-, hin, -⟩ | ⟨rfl, -, rfl⟩ := h₂
    · exact absurd hin hno
    exact ⟨hrun₁, hrun₂⟩
  obtain ⟨rfl, -, hm₁⟩ | ⟨-, hno, -⟩ := h₁
  swap
  · exact absurd hinside hno
  obtain ⟨rfl, -, hw₂⟩ | ⟨-, hno, -⟩ := h₂
  swap
  · exact absurd hinside hno
  have hpages := hinside.pages hsh.size
  have husable : ∀ i, i < len → (Usable im.us (va + i) ↔ (s.procs p).guard ≠ some ((va + i) / pgsize)) :=
    fun i hi => hsh.usable_iff (hpages i hi)
  have hin : (copyin im.upt (.kern o) va len).Ends (Sound board) (fun _ => False) s.ram _ := ends_copyin hG hmap trivial hpages
  have hout : (copyout im.upt va src len).Ends (Sound board) (fun _ => False) s.ram _ := ends_copyout hG hmap hpages
  obtain ⟨r₃, m₃, hrun₃, h₃⟩ := hin.returns
  obtain ⟨r₄, m₄, hrun₄, h₄⟩ := hout.returns
  refine ⟨hrun₁, hrun₂, fun hall => ?_, fun hguard => ?_⟩
  · obtain ⟨rfl, -, hm₃⟩ | ⟨-, i, hi, hnot⟩ := h₃
    swap
    · exact absurd ((husable i hi).mpr (hall i hi)) hnot
    obtain ⟨rfl, -, hw₄⟩ | ⟨-, i, hi, hnot⟩ := h₄
    swap
    · exact absurd ((husable i hi).mpr (hall i hi)) hnot
    rw [hm₁, ← hm₃, hw₂.unique hw₄]
    exact ⟨hrun₃, hrun₄⟩
  · obtain ⟨i, hi, hg⟩ := hguard
    have hnot : ¬ Usable im.us (va + i) := fun hu => (husable i hi).mp hu hg
    obtain ⟨-, hall, -⟩ | ⟨rfl, -⟩ := h₃
    · exact absurd (hall i hi) hnot
    obtain ⟨-, hall, -⟩ | ⟨rfl, -⟩ := h₄
    · exact absurd (hall i hi) hnot
    exact ⟨⟨m₃, hrun₃⟩, m₄, hrun₄⟩

/-- In a process that has run `exec`: eight bytes of the program, and eight below the stack. -/
theorem copies_agree_small : ∃ (s : Sys (Fin 2) Unit Unit) (p : Fin 2) (u k : Page),
    (s.procs p).pagetable = some u ∧ (s.procs p).kpagetable = some k ∧
      (∃ m₁, (copyin2 (s.procs p).sz k (.kern 0) 0 8).run s.ram = .done 0 m₁ ∧ (copyin u (.kern 0) 0 8).run s.ram = .done 0 m₁) ∧
      (∃ m₂, (copyout2 (s.procs p).sz k 0 (fun _ => 1) 8).run s.ram = .done 0 m₂ ∧
        (copyout u 0 (fun _ => 1) 8).run s.ram = .done 0 m₂) ∧
      (∃ m₁, (copyin2 (s.procs p).sz k (.kern 0) 4096 8).run s.ram = .done 0 m₁) ∧
      ∃ m', (copyin u (.kern 0) 4096 8).run s.ram = .done (-1) m' := by
  obtain ⟨-, s, p, -, -, -, -, -, hs, hp, hsz, hguard⟩ := small_exec
  have hpage : pgsize = 4096 := pgsize_eq
  have hagree := fun va => copies_agree small_booted (List.cons_ne_nil 0 [1]) hs hp (by decide : 8 < 2 ^ 63) va 0 fun _ => 1
  obtain ⟨u, k, hu, hk, -, hinside⟩ := hagree 0
  obtain ⟨u', k', hu', hk', -, hinside'⟩ := hagree 4096
  cases hu.symm.trans hu'
  cases hk.symm.trans hk'
  obtain ⟨m₁, m₂, hin2, hout2, hsame, -⟩ := hinside (by rw [hsz]; exact ⟨by decide, by decide⟩)
  obtain ⟨hin, hout⟩ := hsame fun i hi => by
    rw [hguard, Nat.div_eq_of_lt (by omega)]
    decide
  obtain ⟨m₃, -, hin2', -, -, hfails⟩ := hinside' (by rw [hsz]; exact ⟨by decide, by decide⟩)
  obtain ⟨⟨m', hin'⟩, -⟩ := hfails ⟨0, by decide, by rw [hguard]; decide⟩
  exact ⟨s, p, u, k, hu, hk, ⟨m₁, hin2, hin⟩, ⟨m₂, hout2, hout⟩, ⟨m₃, hin2'⟩, m', hin'⟩

/-- The same of strings. `copyinstr2` succeeds if and only if a string of less than `max` bytes ends below the size of the
process; then `copyinstr` leaves the same memory, unless the string meets the page below the stack. -/
theorem strings_agree (hm : Booted board m₀) (hproc : proc ≠ []) (h : Reached board m₀ proc initproc s)
    (hp : (s.procs p).state ≠ .unused) (va max o : Nat) :
    ∃ T im, Kept board m₀ s T ∧ T p = some im ∧ ∃ r m₁, (copyinstr2 (s.procs p).sz im.kpt (.kern o) va max).run s.ram = .done r m₁ ∧
      ((r = -1 ∧ ∀ n, n < max → va + n < (s.procs p).sz → ¬ StringOf s.ram im.us va n) ∨
        (r = 0 ∧ ∃ n, n < max ∧ va + n < (s.procs p).sz ∧ StringOf s.ram im.us va n ∧
          m₁ = s.ram.put (.kern o) (n + 1) (fun i => userByte s.ram im.us (va + i)) ∧
          ((∀ i, i < n + 1 → (s.procs p).guard ≠ some ((va + i) / pgsize)) → (copyinstr im.upt (.kern o) va max).run s.ram = .done 0 m₁) ∧
          ((∃ i, i < n + 1 ∧ (s.procs p).guard = some ((va + i) / pgsize)) →
            ∃ m', (copyinstr im.upt (.kern o) va max).run s.ram = .done (-1) m'))) := by
  obtain ⟨T, hT⟩ := h.kept hm hproc
  obtain ⟨im, hp⟩ := hT.image hp
  have hsh := (hT.held.shows p im hp).1
  have hmap := hT.held.mapping hm.stocked hp
  have hG := sound_allows hm.stocked
  have hapart : Dst.Apart s.ram im.upt im.kpt im.us (.kern o) := trivial
  have hfast : (copyinstr2 (s.procs p).sz im.kpt (.kern o) va max).Ends (Sound board) (fun _ => False) s.ram _ :=
    ends_copyinstr2 hG hmap hapart hsh.size max
  obtain ⟨r, m₁, hrun, hr⟩ := hfast.returns
  refine ⟨T, im, hT, hp, r, m₁, hrun, ?_⟩
  obtain ⟨hr, n, hn, hsz, hstr, hm₁⟩ | hnone := hr
  swap
  · exact .inl hnone
  refine .inr ⟨hr, n, hn, hsz, hstr, hm₁, ?_⟩
  have hinside : Inside (s.procs p).sz va (n + 1) := ⟨by omega, by omega⟩
  have hpages := hinside.pages hsh.size
  have husable : ∀ i, i < n + 1 → (Usable im.us (va + i) ↔ (s.procs p).guard ≠ some ((va + i) / pgsize)) :=
    fun i hi => hsh.usable_iff (hpages i hi)
  have hslow : (copyinstr im.upt (.kern o) va max).Ends (Sound board) (fun _ => False) s.ram _ :=
    ends_copyinstr hG hmap hapart hstr hn hpages
  obtain ⟨r', m₂, hrun', hr'⟩ := hslow.returns
  refine ⟨fun hall => ?_, fun hguard => ?_⟩
  · obtain ⟨rfl, -, hm₂⟩ | ⟨-, i, hi, hnot⟩ := hr'
    · rw [hm₁, ← hm₂]
      exact hrun'
    · exact absurd ((husable i hi).mpr (hall i hi)) hnot
  · obtain ⟨i, hi, hg⟩ := hguard
    obtain ⟨-, hall, -⟩ | ⟨rfl, -⟩ := hr'
    · exact absurd hg ((husable i hi).mp (hall i hi))
    · exact ⟨m₂, hrun'⟩

theorem strings_agree_small : ∃ (s : Sys (Fin 2) Unit Unit) (p : Fin 2) (k : Page) (r : Int) (m₁ : Ram),
    (copyinstr2 (s.procs p).sz k (.kern 0) 0 4).run s.ram = .done r m₁ := by
  obtain ⟨s, p, hs, hp, -⟩ := small_reached
  obtain ⟨-, im, -, -, r, m₁, hrun, -⟩ := strings_agree small_booted (List.cons_ne_nil 0 [1]) hs hp 0 4 0
  exact ⟨s, p, im.kpt, r, m₁, hrun⟩

end Farron.Memory
