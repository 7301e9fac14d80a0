import Farron.Memory.Execs

/-! Processes from the first to the last.

`userinit` makes the first process, `fork` the others; `exec` and `sbrk` change what they have,
and `exit` and `wait` take it back. `Kept` is the invariant: a slot of the process table is unused
or has an image, and the images and the free list are all pages. Calls come one after another, in any
order, by any processes that are there; between calls the programs run (`Between`). -/
namespace Farron.Memory
open Resumption Radix
variable {ι φ ε : Type} [DecidableEq ι] [Fintype ι] {board : Board} {m₀ m m' : Ram} {R : Multiset (Page × Use)}
  {E : Stop → Prop} {s s' : Sys ι φ ε} {T : ι → Option Image} {j p : ι} {im : Image} {proc : List ι}

/-- Every slot that is not unused has an image, and the page below the stack is one of its pages. -/
structure Kept (board : Board) (m₀ : Ram) (s : Sys ι φ ε) (T : ι → Option Image) : Prop where
  held : Held board m₀ s T
  unused : ∀ q, T q = none ↔ (s.procs q).state = .unused
  guard : ∀ q im g, T q = some im → (s.procs q).guard = some g → g < im.us.length

/-! ### The first process -/

omit [DecidableEq ι] in
theorem boot_held (fs : φ) (name : List Byte) : Held board m₀ (boot m₀ fs name : Sys ι φ ε) fun _ => none := by
  refine ⟨nofun, fun _ _ => ⟨rfl, rfl, rfl, rfl⟩, ?_⟩
  simp only [owned_none, Finset.sum_const_zero]
  exact ⟨by rw [Multiset.map_zero, zero_add]; rfl, fun x hx => absurd hx (Multiset.notMem_zero x), fun _ _ => rfl⟩

omit [DecidableEq ι] [Fintype ι] in
/-- A page besides the two page tables is written. -/
theorem Pair.write {K : Finset (Fin 512)} {f g : Nat → Option Pte} {u k q : Page} {x : Use} (hm : Stocked board m₀)
    (h : Pair board m₀ K f g u k ((q, x) ::ₘ R) m) (b : Nat → Byte) :
    Pair board m₀ K f g u k ((q, x) ::ₘ R) (m.write q b) ∧ Edit K k R m (m.write q b) := by
  have hown : tabs (pagesOf m Finset.univ u) + (tabs (pagesOf m K k) + (q, x) ::ₘ R) =
      (q, x) ::ₘ (tabs (pagesOf m Finset.univ u) + (tabs (pagesOf m K k) + R)) := by
    rw [Multiset.add_cons, Multiset.add_cons]
  obtain ⟨hb, hs⟩ := (h.books.congr hown).write hm b
  refine ⟨⟨h.user.same hs.left, h.kern.same hs.right.left, ?_⟩, hs.right.right, fun j _ => ?_⟩
  · rw [hs.left.pagesOf, hs.right.left.pagesOf, hown]
    exact hb
  · rw [hs.right.left.tabs_heap (root_mem_pagesOf _ _ _)]

omit [DecidableEq ι] [Fintype ι] in
/-- The first user page is mapped. -/
theorem Pair.first {u k stack tf : Page} {e : Pte} (h : Pair board m₀ procIdx (Function.update (usrMap board tf []) 0 (some e))
    (Function.update (kernMap (some stack) []) 0 (some e.kern)) u k ((e.page, .user) ::ₘ R) m) :
    Pair board m₀ procIdx (usrMap board tf [e]) (kernMap (some stack) [e]) u k (userPages [e] + R) m := by
  have hone : ([] : List Pte).length + [e].length ≤ 2 ^ 19 := by
    rw [List.length_nil, List.length_singleton]
    omega
  have hu : mapAll (usrMap board tf []) 0 [e] = usrMap board tf [e] := usrMap_append board tf hone
  have hk : mapAll (kernMap (some stack) []) 0 [e.kern] = kernMap (some stack) [e] := kernMap_append (some stack) hone
  have hput : ∀ (f : Nat → Option Pte) (e : Pte), Function.update f 0 (some e) = mapAll f 0 [e] := by
    intro f e
    rw [← List.nil_append [e], ← mapAll_concat, mapAll_nil]
    rfl
  rw [hput, hput, hu, hk] at h
  refine h.rest ?_
  rw [userPages_singleton, Multiset.singleton_add]

/-- The page that `uvminit` maps holds a program. -/
theorem ends_uvminit {n : Nat} {src : Nat → Byte} (hm : Stocked board m₀) (h : Held board m₀ s T) (hp : T p = some im) (hbare : im.us = [])
    (hn : n < pgsize) (hroom : 5 ≤ s.ram.free.length) :
    (uvminit im.upt im.kpt src n).Ends (Sound board) E s.ram fun _ m' => ∃ e : Pte, e.flags = 31 ∧
      m'.byte e.page = overwrite 0 n src (fun _ => 0) ∧
      s.ram.free.length ≤ m'.free.length + 5 ∧
      Edit procIdx im.kpt ((im.stack, .stack) ::ₘ (im.tf, .trapframe) ::ₘ rest s.ram T p) s.ram m' ∧
      Pair board m₀ procIdx (usrMap board im.tf [e]) (kernMap (some im.stack) [e]) im.upt im.kpt
        (userPages [e] + ((im.stack, .stack) ::ₘ (im.tf, .trapframe) ::ₘ rest s.ram T p)) m' := by
  have hG := sound_allows hm
  have hpair := h.pair hp
  rw [hbare, userPages_nil, zero_add] at hpair
  unfold uvminit
  rw [if_neg (by omega)]
  apply ends_kalloc hm hG hpair.books
  · intro hempty
    rw [hempty] at hroom
    exact absurd hroom (by decide)
  intro mem m₁ hfree₁ hb₁ hs₁
  have hlen₁ : s.ram.free.length = m₁.free.length + 1 := congrArg List.length hfree₁
  have hmem : mem < 2 ^ 52 := (hb₁.managed hm (Multiset.mem_cons_self _ _)).lt
  obtain ⟨hb₂, hs₂⟩ := hb₁.write hm fun _ => 0
  obtain ⟨h₂, he₂⟩ := hpair.take hb₂ (hs₁.trans hs₂)
  apply Prog.Ends.change (hG.plain _)
  have hfree₂ : (m₁.write mem fun _ => 0).free.length = m₁.free.length := rfl
  have huser : (mappages im.upt (0 * pgsize) pgsize mem (pteW ||| pteR ||| pteX ||| pteU)).Ends (Sound board) E _ _ :=
    ends_map_user hm hG h₂ (by decide) rfl hmem (by decide) (by decide)
  rw [Nat.zero_mul] at huser
  apply huser.bind
  intro r m₃ hr
  obtain ⟨he₃, ⟨-, -, hshort⟩ | ⟨-, h₃, hfree₃⟩⟩ := hr
  · omega
  have hkern : (mappages im.kpt (0 * pgsize) pgsize mem (pteW ||| pteR ||| pteX)).Ends (Sound board) E _ _ :=
    ends_map_kern hm hG (by decide) h₃ (by decide) rfl hmem (by decide) (by decide)
  rw [Nat.zero_mul] at hkern
  apply hkern.bind
  intro r m₄ hr
  obtain ⟨he₄, ⟨-, -, hshort⟩ | ⟨-, h₄, hfree₄⟩⟩ := hr
  · omega
  have hflag : (pteW ||| pteR ||| pteX ||| pteU) ||| pteV = 31 := by decide
  have hflag' : (pteW ||| pteR ||| pteX) ||| pteV = noU 31 := by decide
  rw [hflag, hflag'] at h₄
  obtain ⟨h₅, he₅⟩ := h₄.write hm (overwrite 0 n src (m₄.byte mem))
  have hbyte : m₄.byte mem = fun _ => 0 := by
    have hm₄ : m₄.byte mem = m₃.byte mem := he₄.same.byte _ (Multiset.mem_cons_self _ _)
    have hm₃ : m₃.byte mem = (m₁.write mem fun _ => 0).byte mem := he₃.same.byte _ (Multiset.mem_cons_self _ _)
    rw [hm₄, hm₃, Ram.write_byte]
  refine Prog.Ends.change_last (hG.plain _) ⟨⟨mem, 31⟩, rfl, ?_, ?_, ?_, Pair.first h₅⟩
  · rw [Ram.write_byte, hbyte]
  · rw [Ram.write_free]
    omega
  · have hle := Multiset.le_cons_self ((im.stack, Use.stack) ::ₘ (im.tf, .trapframe) ::ₘ rest s.ram T p) (mem, Use.user)
    exact ((he₂.trans (he₃.mono hle)).trans (he₄.mono hle)).trans he₅

/-- The first process is there: a page of program, which starts at its beginning with the stack at the end of the page.
No more than thirteen pages have been taken. -/
structure First (board : Board) (m₀ : Ram) (s : Sys ι φ ε) (j : ι) (im : Image) : Prop where
  kept : Kept board m₀ s (Function.update (fun _ => none) j (some im))
  program : ∃ e, im.us = [e] ∧ s.ram.byte e.page = overwrite 0 initcode.length (fun i => initcode.getD i 0) fun _ => 0
  registers : ∃ b, s.ram.byte im.tf = putWord64 tfSp pgsize (putWord64 tfEpc 0 b)
  state : (s.procs j).state = .runnable
  size : (s.procs j).sz = pgsize
  taken : m₀.free.length ≤ s.ram.free.length + 13

theorem comes_userinit (hm : Booted board m₀) (fs : φ) (name : List Byte) (hproc : proc ≠ []) :
    Comes board E (userinit board proc) (boot m₀ fs name : Sys ι φ ε) fun _ s' => ∃ j im, First board m₀ s' j im := by
  have hroom : 13 ≤ (boot m₀ fs name : Sys ι φ ε).ram.free.length := hm.room
  have hboot : Held board m₀ (boot m₀ fs name : Sys ι φ ε) fun _ => none := boot_held fs name
  unfold userinit
  apply (comes_allocproc hm hboot (fun _ _ => rfl) proc fun _ hs => absurd hs.2 (by omega)).bind
  intro r s hr
  obtain ⟨rfl, ⟨hall, -⟩ | ⟨hlt, -⟩⟩ | ⟨j, im, rfl, -, -, -, hst, hfree⟩ := hr
  · obtain ⟨q, hq⟩ := List.exists_mem_of_ne_nil proc hproc
    exact absurd rfl (hall q hq)
  · omega
  have hj : Function.update (fun _ => none) j (some im) j = some im := Function.update_self j (some im) (fun _ => none)
  have hself : s.procs j = { (boot m₀ fs name : Sys ι φ ε).procs j with
      pid := (boot m₀ fs name : Sys ι φ ε).nextpid, trapframe := some im.tf, pagetable := some im.upt, kpagetable := some im.kpt } := by
    rw [hst.procs, Function.update_self]
  have hothers : ∀ q, q ≠ j → s.procs q = (boot m₀ fs name : Sys ι φ ε).procs q := by
    intro q hq
    rw [hst.procs, Function.update_of_ne hq]
  have hshows := (hst.held.shows j im hj).1
  simp only [deref, Prog.pure_eq, Prog.ret_bind]
  apply comes_look
  simp only [hshows.pagetable, hshows.kpagetable, hshows.trapframe, Prog.ret_bind]
  refine comes_vm (ends_uvminit hm.stocked hst.held hj hst.bare (by decide) (by omega)) fun _ m₁ h₁ => ?_
  obtain ⟨e, hflags, hbyte, htaken, hedit, hpair⟩ := h₁
  apply comes_slot
  intro y hy
  refine comes_vm_at (P := fun _ m' => m' = m₁.write im.tf (putWord64 tfEpc 0 (m₁.byte im.tf))) (Prog.Ends.change_last trivial rfl)
    fun _ m₂ hm₂ => ?_
  refine comes_vm_at (P := fun _ m' => m' = m₂.write im.tf (putWord64 tfSp pgsize (m₂.byte im.tf))) (Prog.Ends.change_last trivial rfl)
    fun _ m₃ hm₃ => ?_
  rw [hm₂, write_write] at hm₃
  obtain ⟨hfit₁, hb₁⟩ := Pair.image { im with us := [e] } hpair fun i hi => (hedit.row i hi).trans ((hst.held.shows j im hj).2.row i hi)
  obtain ⟨hfit₂, hb₂, hs₂⟩ := Image.write_trapframe { im with us := [e] } hm.stocked hfit₁ hb₁
    (putWord64 tfSp pgsize (putWord64 tfEpc 0 (m₁.byte im.tf)))
  rw [← hm₃] at hfit₂ hb₂ hs₂
  apply comes_setProc_last
  obtain ⟨s', hs'⟩ : ∃ s', s' = (⟨m₃, Function.update s.procs j y, s.nextpid, s.fs⟩ : Sys ι φ ε).setProc j fun x =>
    { x with name := initname, state := .runnable } := ⟨_, rfl⟩
  rw [← hs']
  have hram : s'.ram = m₃ := by rw [hs', setProc_ram]
  have hprocs : ∀ q, q ≠ j → s'.procs q = s.procs q := by
    intro q hq
    rw [hs', setProc_ne _ _ _ hq]
    exact Function.update_of_ne hq _ _
  have hproc : s'.procs j = { s.procs j with sz := pgsize, name := initname, state := .runnable } := by
    rw [hs', setProc_same]
    simp only [Function.update_self, hy]
  have hguard : (s.procs j).guard = none := by rw [hself]; rfl
  refine ⟨j, { im with us := [e] }, ⟨⟨?_, fun q => ?_, fun q im' g hq hg => ?_⟩, ⟨e, rfl, ?_⟩, ⟨m₁.byte im.tf, ?_⟩, ?_, ?_, ?_⟩⟩
  · have hidem : Function.update (Function.update (fun _ => none) j (some im)) j (some { im with us := [e] }) =
        Function.update (fun _ => none) j (some { im with us := [e] }) := Function.update_idem _ _ _
    rw [← hidem]
    refine hst.held.update hprocs ?_ (fun im' him => ?_) (fun h => absurd h (Option.some_ne_none _)) ?_
    · rw [hram]
      exact hedit.same.tail.tail.trans hs₂.right
    · cases him
      rw [hproc, hram]
      refine ⟨⟨hshows.pagetable, hshows.kpagetable, hshows.trapframe, npages_mul 1, fun v e' he' => ?_⟩, hfit₂⟩
      rw [List.mem_singleton.mp (List.mem_of_getElem? he'), hflags]
      show 31 = if (s.procs j).guard = some v then 15 else 31
      rw [hguard, if_neg (Option.some_ne_none v).symm]
    · rw [hram]
      exact hb₂
  · by_cases hq : q = j
    · rw [hq, Function.update_self, hproc]
      exact ⟨fun h => absurd h (Option.some_ne_none _), fun h => absurd h (show ProcState.runnable ≠ .unused by decide)⟩
    · rw [Function.update_of_ne hq, hprocs q hq, hothers q hq]
      exact ⟨fun _ => rfl, fun _ => rfl⟩
  · by_cases hqj : q = j
    · rw [hqj, hproc] at hg
      exact absurd (hguard.symm.trans hg) (Option.some_ne_none g).symm
    · rw [Function.update_of_ne hqj] at hq
      cases hq
  · rw [hram, hs₂.left.byte _ (mem_userPages (List.mem_singleton_self e))]
    exact hbyte
  · rw [hram, hm₃, Ram.write_byte]
  · rw [hproc]
  · rw [hproc]
  · have hram₀ : (boot m₀ fs name : Sys ι φ ε).ram.free.length = m₀.free.length := rfl
    rw [hram, hm₃, Ram.write_free]
    omega

/-! ### One call -/

/-- The system calls that change memory. -/
inductive MemCall
  | fork
  | exec (path : CString) (file : Option Contents) (argv : List CString)
  | growproc (n : Int)
  | exit (status : Int)
  | wait (addr : Nat)

/-- The arguments are such as `sys_exec` and `sys_sbrk` pass on: strings that fit into a page, and an `int`. -/
def MemCall.Proper : MemCall → Prop
  | .exec _ _ argv => ∀ s ∈ argv, s.length < pgsize
  | .growproc n => -2 ^ 31 ≤ n ∧ n < 2 ^ 31
  | _ => True

omit [DecidableEq ι] in
theorem owned_le_sum (m : Ram) (T : ι → Option Image) (q : ι) : owned m (T q) ≤ ∑ q, owned m (T q) := by
  classical
  rw [sum_rest m T q]
  exact Multiset.le_add_right _ _

/-- After the call `c` of `p` another process has what it had, with the same contents, unless `p` has waited for
it: then it was a zombie and a child of `p`, and is gone. -/
def Isolated (c : MemCall) (T T' : ι → Option Image) (p : ι) (s s' : Sys ι φ ε) : Prop :=
  ∀ q im, q ≠ p → T q = some im → (T' q = some im ∧ Same (im.owned s.ram) s.ram s'.ram) ∨
    ((∃ addr, c = .wait addr) ∧ T' q = none ∧ (s.procs q).state = .zombie ∧ (s.procs q).parent = some p)

omit [Fintype ι] [DecidableEq ι] in
theorem Isolated.refl (c : MemCall) (T : ι → Option Image) (p : ι) (s : Sys ι φ ε) : Isolated c T T p s s :=
  fun _ _ _ hq => .inl ⟨hq, Same.refl _ _⟩

omit [DecidableEq ι] in
theorem Isolated.of_sum (c : MemCall) (hs : Same (∑ q, owned s.ram (T q)) s.ram s'.ram) : Isolated c T T p s s' := by
  intro q im _ hq
  refine .inl ⟨hq, hs.mono ?_⟩
  have hle := owned_le_sum s.ram T q
  rwa [hq, owned_some] at hle

omit [DecidableEq ι] in
/-- What all processes own, after a step that leaves it alone. -/
theorem Held.sum_same (h : Held board m₀ s T) (hs : Same (∑ q, owned s.ram (T q)) s.ram m') :
    ∑ q, owned m' (T q) = ∑ q, owned s.ram (T q) := by
  apply Finset.sum_congr rfl
  intro q _
  cases hq : T q with
  | none => rw [owned_none, owned_none]
  | some im =>
    rw [owned_some, owned_some]
    have hle := owned_le_sum s.ram T q
    rw [hq, owned_some] at hle
    exact ((h.shows q im hq).2.same (hs.mono hle)).2

/-- Only `p` has another image. -/
theorem Isolated.of_rest (c : MemCall) {o : Option Image} (hs : Same (rest s.ram T p) s.ram s'.ram) :
    Isolated c T (Function.update T p o) p s s' := by
  intro q im hqp hq
  rw [Function.update_of_ne hqp]
  refine .inl ⟨hq, hs.mono ?_⟩
  have hle := owned_le_rest s.ram T hqp
  rwa [hq, owned_some] at hle

namespace Kept

omit [DecidableEq ι] in
/-- A live slot has an image. -/
theorem image (h : Kept board m₀ s T) (hp : (s.procs p).state ≠ .unused) : ∃ im, T p = some im := by
  cases hT : T p with
  | none => exact absurd ((h.unused p).mp hT) hp
  | some im => exact ⟨im, rfl⟩

omit [DecidableEq ι] in
/-- A slot with an image is live. -/
theorem live (h : Kept board m₀ s T) (hp : T p = some im) : (s.procs p).state ≠ .unused := by
  intro hc
  rw [(h.unused p).mpr hc] at hp
  cases hp

omit [DecidableEq ι] in
theorem zombie (h : Kept board m₀ s T) (hp : (s.procs p).state = .zombie) : ∃ im, T p = some im := by
  apply h.image
  rw [hp]
  exact fun hx => ProcState.noConfusion hx

/-- One slot has another image; the others are as they were. -/
theorem update {o : Option Image} (h : Kept board m₀ s T) (hh : Held board m₀ s' (Function.update T p o))
    (hothers : ∀ q, q ≠ p → (s'.procs q).state = (s.procs q).state ∧ (s'.procs q).guard = (s.procs q).guard)
    (hunused : o = none ↔ (s'.procs p).state = .unused)
    (hguard : ∀ im g, o = some im → (s'.procs p).guard = some g → g < im.us.length) : Kept board m₀ s' (Function.update T p o) := by
  refine ⟨hh, fun q => ?_, fun q im g hq hg => ?_⟩
  · by_cases hqp : q = p
    · rw [hqp, Function.update_self]
      exact hunused
    · rw [Function.update_of_ne hqp, (hothers q hqp).1]
      exact h.unused q
  · by_cases hqp : q = p
    · rw [hqp, Function.update_self] at hq
      rw [hqp] at hg
      exact hguard im g hq hg
    · rw [Function.update_of_ne hqp] at hq
      rw [(hothers q hqp).2] at hg
      exact h.guard q im g hq hg

omit [DecidableEq ι] in
/-- No slot has another image. -/
theorem stay (h : Kept board m₀ s T) (hh : Held board m₀ s' T)
    (hslots : ∀ q, ((s'.procs q).state = .unused ↔ (s.procs q).state = .unused) ∧ (T q ≠ none → (s'.procs q).guard = (s.procs q).guard)) :
    Kept board m₀ s' T := by
  refine ⟨hh, fun q => (h.unused q).trans (hslots q).1.symm, fun q im g hq hg => ?_⟩
  rw [(hslots q).2 (by rw [hq]; exact nofun)] at hg
  exact h.guard q im g hq hg

end Kept

/-- What the kernel does for the process `p`, and what it returns, if it does. -/
def MemCall.code (board : Board) (proc : List ι) (initproc p : ι) : MemCall → Code ι φ ε (Option Int)
  | .fork => do
    let pid ← Memory.fork board proc p
    return some pid
  | .exec path file argv => do
    let argc ← Memory.exec board p path file argv
    return some argc
  | .growproc n => do
    let r ← Memory.growproc board p n
    return some r
  | .exit status => do
    Memory.exit initproc p status
    return none
  | .wait addr => Memory.wait board proc p addr

/-- The calls that do not return: `wait` goes to sleep, with nothing changed, and `exit` leaves a zombie. -/
def MemCall.Rests (p : ι) (s s' : Sys ι φ ε) : MemCall → Prop
  | .wait _ => s' = s
  | .exit _ => (s'.procs p).state = .zombie
  | _ => False

/-- The ways in which a call ends in a panic. -/
def MemCall.Panics (proc : List ι) (initproc p : ι) (s : Sys ι φ ε) : MemCall → Stop → Prop
  | .fork, e => e = unmapPanic ∧ (∃ q ∈ proc, (s.procs q).state = .unused) ∧ Strands s.ram.free.length
  | .exit _, e => e = .panic "init exiting" ∧ p = initproc
  | _, _ => False

/-- What a call comes to. -/
def Goes (board : Board) (m₀ : Ram) (c : MemCall) (T : ι → Option Image) (p : ι) (s s' : Sys ι φ ε) : Prop :=
  ∃ T', Kept board m₀ s' T' ∧ Isolated c T T' p s s'

section Calls
variable {parent child new : Image} {initproc : ι} {us : List Pte} {c : MemCall}

theorem Kept.goes_dropped (h : Kept board m₀ s T) (hu : (s.procs j).state = .unused) (hd : Dropped board m₀ T j s s') : Goes board m₀ c T p s s' := by
  refine ⟨T, h.stay hd.held fun q => ?_, Isolated.of_sum c hd.same⟩
  by_cases hq : q = j
  · rw [hq]
    exact ⟨⟨fun _ => hu, fun _ => hd.unused⟩, fun hT => absurd ((h.unused j).mpr hu) hT⟩
  · rw [hd.others q hq]
    exact ⟨Iff.rfl, fun _ => rfl⟩

theorem Kept.goes_forked (h : Kept board m₀ s T) (hp : T p = some parent) (hu : (s.procs j).state = .unused)
    (hf : Forked board m₀ T p j parent child s s') : Goes board m₀ c T p s s' := by
  have hj := (h.unused j).mpr hu
  obtain ⟨y, hy, -⟩ := hf.slot
  refine ⟨_, h.update hf.held (fun q hq => ?_) ?_ fun im g him hg => ?_, fun q im hqp hq => ?_⟩
  · rw [hf.others q hq]
    exact ⟨rfl, rfl⟩
  · rw [hy]
    exact ⟨fun hc => absurd hc (Option.some_ne_none _), fun hc => ProcState.noConfusion hc⟩
  · cases him
    rw [hy] at hg
    rw [hf.copy.length]
    exact h.guard p parent g hp hg
  · have hqj : q ≠ j := by
      intro hc
      rw [hc, hj] at hq
      cases hq
    rw [Function.update_of_ne hqj]
    exact (Isolated.of_sum c hf.same : Isolated c T T p s s') q im hqp hq

theorem Kept.goes_executed {path : CString} {entry : Nat} {x : Flat} {y : Stacked} (h : Kept board m₀ s T) (hp : T p = some im)
    (he : Executed board m₀ T p im new path entry x y s s') : Goes board m₀ c T p s s' := by
  have hlive := h.live hp
  refine ⟨_, h.update he.held (fun q hq => ?_) ?_ fun im' g him hg => ?_, Isolated.of_rest c he.same⟩
  · rw [he.others q hq]
    exact ⟨rfl, rfl⟩
  · rw [he.slot]
    exact ⟨fun hc => absurd hc (Option.some_ne_none _), fun hc => absurd hc hlive⟩
  · cases him
    rw [he.slot] at hg
    cases hg
    rw [he.pages]
    omega

omit [DecidableEq ι] in
theorem Kept.goes_unchanged (h : Kept board m₀ s T) (hu : Unchanged board m₀ T s s') : Goes board m₀ c T p s s' := by
  refine ⟨T, h.stay hu.held fun q => ?_, Isolated.of_sum c hu.same⟩
  rw [hu.procs]
  exact ⟨Iff.rfl, fun _ => rfl⟩

theorem Kept.goes_grows {n r : Int} (h : Kept board m₀ s T) (hp : T p = some im) (hg : Grows board m₀ T p im n s r s') :
    Goes board m₀ c T p s s' := by
  have hlive := h.live hp
  obtain ⟨us, hr, hcase⟩ := hg
  have hself : (s'.procs p).state = (s.procs p).state ∧ ∀ g, (s'.procs p).guard = some g → g < us.length := by
    obtain ⟨-, -, rfl, hprocs⟩ | ⟨-, hlen, hslot⟩ := hcase
    · rw [hprocs]
      exact ⟨rfl, fun g hg => h.guard p im g hp hg⟩
    · rw [hslot]
      refine ⟨rfl, fun g hg => ?_⟩
      obtain ⟨-, hlt⟩ := Option.filter_eq_some_iff.mp hg
      rw [hlen]
      exact of_decide_eq_true hlt
  refine ⟨_, h.update hr.held (fun q hq => ?_) ?_ fun im' g him hg => ?_, Isolated.of_rest c hr.same⟩
  · rw [hr.others q hq]
    exact ⟨rfl, rfl⟩
  · rw [hself.1]
    exact ⟨fun hc => absurd hc (Option.some_ne_none _), fun hc => absurd hc hlive⟩
  · cases him
    exact hself.2 g hg

/-- A zombie is gone. -/
theorem Kept.reaped {np : ι} (h : Kept board m₀ s T) (hr : Reaped board m₀ T np ⟨m, s.procs, s.nextpid, s.fs⟩ s') :
    Kept board m₀ s' (Function.update T np none) := by
  refine h.update hr.held (fun q hq => ?_) ?_ fun im g him => absurd him.symm (Option.some_ne_none _)
  · rw [hr.others q hq]
    exact ⟨rfl, rfl⟩
  · rw [hr.slot]
    exact ⟨fun _ => rfl, fun _ => rfl⟩

theorem Kept.goes_waits {addr : Nat} {r : Option Int} (h : Kept board m₀ s T) (hw : Waits board m₀ T p addr proc s r s') :
    Goes board m₀ (.wait addr) T p s s' := by
  obtain ⟨-, rfl, -⟩ | ⟨np, m, -, hparent, hz, -, hs, hr⟩ := hw
  · exact ⟨T, h, Isolated.refl _ _ _ _⟩
  refine ⟨_, h.reaped hr, fun q im hqp hq => ?_⟩
  by_cases hqn : q = np
  · rw [hqn, Function.update_self]
    exact .inr ⟨⟨addr, rfl⟩, rfl, hz, hparent⟩
  · rw [Function.update_of_ne hqn]
    have hle := owned_le_rest s.ram T hqp
    rw [hq, owned_some] at hle
    have hfirst : Same (im.owned s.ram) s.ram m := hs.mono hle
    have hmid : im.owned m = im.owned s.ram := ((h.held.shows q im hq).2.same hfirst).2
    have hle' := owned_le_rest m T hqn
    rw [hq, owned_some, hmid] at hle'
    exact .inl ⟨hq, hfirst.trans (hr.same.mono hle')⟩

/-- Whatever a live process calls, every page stays in its place, and no other process is touched; a call does not
return only as `Rests` says, and ends in a panic only as `Panics` says. -/
theorem comes_call (hm : Booted board m₀) (h : Kept board m₀ s T) (hp : (s.procs p).state ≠ .unused) (c : MemCall) (hc : c.Proper) :
    Comes board (c.Panics proc initproc p s) (c.code board proc initproc p) s
      fun r s' => Goes board m₀ c T p s s' ∧ (r = none → c.Rests p s s') := by
  obtain ⟨im, hT⟩ := h.image hp
  cases c with
  | fork =>
    have hfree : ∀ q, (s.procs q).state = .unused → T q = none := fun q hq => (h.unused q).mpr hq
    apply (comes_fork hm h.held hfree hT fun hslot hs => ⟨rfl, hslot, hs⟩).bind
    intro r s' hr
    obtain ⟨-, ⟨-, rfl⟩ | ⟨-, j, -, hu, hd⟩⟩ | ⟨j, child, -, -, hu, hf⟩ := hr
    · exact ⟨⟨T, h, Isolated.refl _ _ _ _⟩, fun hc => absurd hc (Option.some_ne_none _)⟩
    · exact ⟨h.goes_dropped hu hd, fun hc => absurd hc (Option.some_ne_none _)⟩
    · exact ⟨h.goes_forked hT hu hf, fun hc => absurd hc (Option.some_ne_none _)⟩
  | exec path file argv =>
    apply (comes_exec hm hc h.held hT).bind
    intro r s' hr
    obtain ⟨-, hu, -⟩ | ⟨new, x, y, -, -, -, he⟩ := hr
    · exact ⟨h.goes_unchanged hu, fun hc => absurd hc (Option.some_ne_none _)⟩
    · exact ⟨h.goes_executed hT he, fun hc => absurd hc (Option.some_ne_none _)⟩
  | growproc n =>
    apply (comes_growproc hm.stocked h.held hT (fun g hg => h.guard p im g hT hg) hc.1 hc.2).bind
    exact fun r s' hr => ⟨h.goes_grows hT hr, fun hc => absurd hc (Option.some_ne_none _)⟩
  | exit status =>
    by_cases hinit : p = initproc
    · show Comes board _ (Memory.exit initproc p status >>= fun _ => pure none) s _
      unfold Memory.exit
      rw [if_pos hinit]
      exact ⟨rfl, hinit⟩
    · apply (comes_exit h.held hinit).bind
      intro r s' hr
      obtain ⟨hh, hram, hslots⟩ := hr
      refine ⟨⟨T, h.stay hh fun q => ⟨?_, fun _ => (hslots q).2⟩, Isolated.of_sum _ ?_⟩, fun _ => ?_⟩
      · rw [(hslots q).1]
        by_cases hq : q = p
        · rw [if_pos hq, hq]
          exact ⟨fun hx => ProcState.noConfusion hx, fun hx => absurd hx hp⟩
        · rw [if_neg hq]
      · rw [hram]
        exact Same.refl _ _
      · rw [MemCall.Rests, (hslots p).1, if_pos rfl]
  | wait addr =>
    refine (comes_wait hm h.held hT fun _ hq => h.zombie hq).imp fun r s' hr => ⟨h.goes_waits hr, fun hnone => ?_⟩
    obtain ⟨-, hsame, -⟩ | ⟨np, m, hpid, -⟩ := hr
    · exact hsame
    · rw [hnone] at hpid
      exact absurd hpid.symm (Option.some_ne_none _)

end Calls

/-! ### Runs -/

/-- What the programs and the rest of the kernel do between two of these calls: they write pages, but none of a
page table, and change fields of processes that say nothing about memory. -/
structure Between (board : Board) (m₀ : Ram) (s s' : Sys ι φ ε) : Prop where
  ram : Touched board m₀ s.ram s'.ram
  pagetable : ∀ q, (s'.procs q).pagetable = (s.procs q).pagetable
  kpagetable : ∀ q, (s'.procs q).kpagetable = (s.procs q).kpagetable
  trapframe : ∀ q, (s'.procs q).trapframe = (s.procs q).trapframe
  size : ∀ q, (s'.procs q).sz = (s.procs q).sz
  guard : ∀ q, (s'.procs q).guard = (s.procs q).guard
  unused : ∀ q, (s'.procs q).state = .unused ↔ (s.procs q).state = .unused

theorem Kept.between (h : Kept board m₀ s T) (hb : Between board m₀ s s') : Kept board m₀ s' T := by
  have hh : Held board m₀ s' T := by
    refine (h.held.touched hb.ram).fields rfl fun q => ?_
    exact ⟨hb.pagetable q, hb.kpagetable q, hb.trapframe q, hb.size q, fun _ => hb.guard q⟩
  refine ⟨hh, fun q => (h.unused q).trans (hb.unused q).symm, fun q im g hq hg => ?_⟩
  rw [hb.guard q] at hg
  exact h.guard q im g hq hg

/-- The states between calls, from the boot on. -/
inductive Reached (board : Board) (m₀ : Ram) (proc : List ι) (initproc : ι) : Sys ι φ ε → Prop
  | start (fs : φ) (name : List Byte) {s : Sys ι φ ε} :
    (userinit board proc).run (boot m₀ fs name) = .done () s → Reached board m₀ proc initproc s
  | call {s s' : Sys ι φ ε} {r : Option Int} (p : ι) (c : MemCall) : Reached board m₀ proc initproc s → (s.procs p).state ≠ .unused →
    c.Proper → (c.code board proc initproc p).run s = .done r s' → Reached board m₀ proc initproc s'
  | between {s s' : Sys ι φ ε} : Reached board m₀ proc initproc s → Between board m₀ s s' → Reached board m₀ proc initproc s'

theorem Reached.kept {initproc : ι} (hm : Booted board m₀) (hproc : proc ≠ []) (h : Reached board m₀ proc initproc s) :
    ∃ T, Kept board m₀ s T := by
  induction h with
  | start fs name hrun =>
    obtain ⟨j, im, hfirst⟩ := (comes_userinit (E := fun _ => False) hm fs name hproc).of_run hrun
    exact ⟨_, hfirst.kept⟩
  | call p c _ hp hc hrun ih =>
    obtain ⟨T, hT⟩ := ih
    obtain ⟨⟨T', hT', -⟩, -⟩ := (comes_call hm hT hp c hc).of_run hrun
    exact ⟨T', hT'⟩
  | between _ hb ih =>
    obtain ⟨T, hT⟩ := ih
    exact ⟨T, hT.between hb⟩

/-- Calls that are made one after another, each by a process that is there. -/
def Sys.calls (board : Board) (proc : List ι) (initproc : ι) : List (ι × MemCall) → Sys ι φ ε → Option (Sys ι φ ε)
  | [], s => some s
  | x :: rest, s =>
    if (s.procs x.1).state = .unused then none
    else ((x.2.code board proc initproc x.1).run s).state?.bind (calls board proc initproc rest)

omit [Fintype ι] in
theorem Reached.calls {initproc : ι} {cs : List (ι × MemCall)} (h : Reached board m₀ proc initproc s) (hcs : ∀ x ∈ cs, x.2.Proper)
    (hrun : s.calls board proc initproc cs = some s') : Reached board m₀ proc initproc s' := by
  induction cs generalizing s with
  | nil =>
    cases hrun
    exact h
  | cons x cs ih =>
    unfold Sys.calls at hrun
    by_cases hlive : (s.procs x.1).state = .unused
    · rw [if_pos hlive] at hrun
      cases hrun
    rw [if_neg hlive] at hrun
    obtain ⟨s₁, hcall, hrest⟩ := Option.bind_eq_some_iff.mp hrun
    obtain ⟨r, hcall⟩ := Outcome.state?_eq_some.mp hcall
    exact ih (h.call x.1 x.2 hlive (hcs x List.mem_cons_self) hcall) (fun y hy => hcs y (List.mem_cons_of_mem _ hy)) hrest

omit [Fintype ι] in
/-- Calls since the boot show that a state that passes a test is reached. -/
theorem Reached.of_calls {initproc : ι} (fs : φ) (name : List Byte) (cs : List (ι × MemCall)) (hcs : ∀ x ∈ cs, x.2.Proper)
    {P : Sys ι φ ε → Prop} [DecidablePred P]
    (h : (((userinit board proc).run (boot m₀ fs name)).state?.any fun s =>
      (s.calls board proc initproc cs).any fun s' => decide (P s')) = true) : ∃ s, Reached board m₀ proc initproc s ∧ P s := by
  obtain ⟨s, hfirst, hs⟩ := (Option.any_eq_true _ _).mp h
  obtain ⟨_, hrun⟩ := Outcome.state?_eq_some.mp hfirst
  obtain ⟨s', hcalls, hP⟩ := (Option.any_eq_true _ _).mp hs
  exact ⟨s', (Reached.start fs name hrun).calls hcs hcalls, of_decide_eq_true hP⟩

end Farron.Memory
