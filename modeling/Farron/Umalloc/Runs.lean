import Farron.Umalloc.Malloc
import Mathlib.Logic.Relation

/-! Programs that use the allocator.

A run is any sequence of calls of `malloc` and `free`, of stores of the program into its own
blocks and of whatever else happens (`Step`). What holds in all of them is the invariant of the
free list, with the blocks in use those that the program has not given back (`Fine`). -/
namespace Farron.Umalloc
open Chains Spans

/-- A block that the program has: the address it was given and the bytes that it asked for. -/
structure Live where
  ap : Nat
  nbytes : Nat
  deriving DecidableEq

namespace Live

def block (b : Live) : Block := ⟨b.ap - headerSize, units b.nbytes⟩

/-- What the program may write. -/
def Owns (b : Live) (a : Nat) : Prop := b.ap ≤ a ∧ a < b.block.after

/-- There is room for the header, and what was asked for is a `uint`. -/
structure Given (b : Live) : Prop where
  header : headerSize ≤ b.ap
  uint : b.nbytes < 2 ^ 32

end Live

structure World (σ : Type) where
  heap : Heap
  kern : σ
  live : List Live

variable {σ : Type} (base : Nat) (sbrk : Int → σ → Option (Option Nat × σ)) (got : σ → List Span)

/-- The program leaves the allocator's words alone: the static header, and in the memory obtained all that is not in a
block of its own. -/
structure Stored (w : World σ) (h : Heap) : Prop where
  freep : h.freep = w.heap.freep
  base : h.ptr base = w.heap.ptr base ∧ h.size base = w.heap.size base
  kept : ∀ a, a % headerSize = 0 → 0 < hits (got w.kern) a → (∀ b ∈ w.live, ¬ b.Owns a) →
    h.ptr a = w.heap.ptr a ∧ h.size a = w.heap.size a

inductive Step : World σ → World σ → Prop
  | malloc {w : World σ} (nbytes : Nat) (ap : Nat) (h : Heap) (s : σ) (uint : nbytes < 2 ^ 32) (few : units nbytes < 2 ^ 27)
      (returns : Returns (fun rounds => malloc base sbrk rounds w.heap w.kern nbytes) (ap, h, s)) :
      Step w ⟨h, s, if ap = 0 then w.live else ⟨ap, nbytes⟩ :: w.live⟩
  | free {w : World σ} (b : Live) (h : Heap) (mem : b ∈ w.live) (returns : Returns (fun rounds => free rounds w.heap b.ap) h) :
      Step w ⟨h, w.kern, w.live.erase b⟩
  | store {w : World σ} (h : Heap) (stored : Stored base got w h) : Step w ⟨h, w.kern, w.live⟩
  | other {w : World σ} (s : σ) (same : got s = got w.kern) : Step w ⟨w.heap, s, w.live⟩

/-- Before the first call. -/
structure Fresh (w : World σ) : Prop where
  freep : w.heap.freep = 0
  live : w.live = []
  got : got w.kern = []

/-- The free list is in order, and the blocks in use are those of the program. -/
def Fine (w : World σ) : Prop :=
  Fresh got w ∨ (∃ ring, Inv base headerSize w.heap ring (w.live.map Live.block) (got w.kern)) ∧ ∀ b ∈ w.live, b.Given

variable {base sbrk got} {w w' : World σ} {nbytes : Nat}

theorem units_pos (h : nbytes < 2 ^ 32) : 0 < units nbytes := by
  rw [units_of_lt h]
  omega

/-- What `malloc` returns, from a list in order. -/
theorem Inv.malloc {h : Heap} {s : σ} {ring used : List Block} {n : Nat} (hG : Grants base headerSize sbrk got)
    (hi : Inv base headerSize h ring used (got s)) (hpos : 0 < n) (hfew : n < 2 ^ 27) :
    ∃ ap h' s', Returns (fun rounds => Umalloc.search sbrk n rounds h.freep (h.ptr h.freep) h s) (ap, h', s') ∧
      ((ap = 0 ∧ h' = h ∧ got s' = got s) ∨ Took base headerSize n used (got s') ap h') := by
  rcases hi.search sbrk s (Nat.dvd_refl _) hpos with ⟨-, ap, h', htook, hrun⟩ | ⟨-, hrun⟩
  · exact ⟨ap, h', s, ⟨ring.length, hrun⟩, .inr htook⟩
  · obtain ⟨hamount, hint, hint32⟩ := asked_amount hfew
    obtain ⟨r, s', hcall, hanswer⟩ := hG (headerSize * asked n) s hamount hint
    have hcall' : sbrk (int32 (asked n * headerSize)) s = some (r, s') := by
      rw [hint32]
      exact hcall
    rcases hi.grow (Nat.dvd_refl _) hpos hcall' hanswer with ⟨-, hgot, hgrow⟩ | ⟨ap, h', k, htook, hgrow⟩
    · exact ⟨0, h, s', Returns.of_grow (k := 0) hrun fun rounds _ => hgrow rounds, .inl ⟨rfl, rfl, hgot⟩⟩
    · exact ⟨ap, h', s', Returns.of_grow hrun hgrow, .inr htook⟩

/-- `malloc` returns, and keeps everything in order. -/
theorem Fine.malloc (hbase : 0 < base) (hG : Grants base headerSize sbrk got) (hw : Fine base got w) (huint : nbytes < 2 ^ 32)
    (hfew : units nbytes < 2 ^ 27) :
    ∃ ap h s, Returns (fun rounds => malloc base sbrk rounds w.heap w.kern nbytes) (ap, h, s) ∧
      Fine base got ⟨h, s, if ap = 0 then w.live else ⟨ap, nbytes⟩ :: w.live⟩ := by
  obtain ⟨ring, hi, hap⟩ : ∃ ring, Inv base headerSize (w.heap.start base) ring (w.live.map Live.block) (got w.kern) ∧
      ∀ b ∈ w.live, b.Given := by
    rcases hw with hf | ⟨⟨ring, hi⟩, hap⟩
    · refine ⟨[root base], ?_, by simp [hf.live]⟩
      rw [hf.live, hf.got]
      exact Inv.start hbase hf.freep
    · refine ⟨ring, ?_, hap⟩
      rw [hi.start_of_ne]
      exact hi
  obtain ⟨ap, h', s', hret, hend⟩ := hi.malloc hG (units_pos huint) hfew
  refine ⟨ap, h', s', hret, .inr ?_⟩
  rcases hend with ⟨rfl, rfl, hgot⟩ | ⟨b, ring', hb, rfl, hi'⟩
  · refine ⟨⟨ring, ?_⟩, hap⟩
    rw [if_pos rfl, hgot]
    exact hi
  · have hblock : Live.block ⟨b.addr + headerSize, nbytes⟩ = b := by
      unfold Live.block
      rw [Nat.add_sub_cancel, ← hb]
    rw [if_neg (by simp)]
    refine ⟨⟨ring', ?_⟩, ?_⟩
    · rw [List.map_cons, hblock]
      exact hi'
    · intro c hc
      rcases List.mem_cons.mp hc with rfl | hc
      · exact ⟨Nat.le_add_left _ _, huint⟩
      · exact hap c hc

/-- `free` of a block of the program returns, and keeps everything in order. -/
theorem Fine.free (hw : Fine base got w) {b : Live} (hb : b ∈ w.live) :
    ∃ h, Returns (fun rounds => free rounds w.heap b.ap) h ∧ Fine base got ⟨h, w.kern, w.live.erase b⟩ := by
  rcases hw with hf | ⟨⟨ring, hi⟩, hap⟩
  · rw [hf.live] at hb
    cases hb
  · have hperm : (w.live.map Live.block).Perm (b.block :: (w.live.erase b).map Live.block) :=
      (List.perm_cons_erase hb).map Live.block
    obtain ⟨h, ring', hret, hi', -⟩ := (hi.perm hperm).free
    have hback : b.block.addr + headerSize = b.ap := Nat.sub_add_cancel (hap b hb).header
    rw [hback] at hret
    exact ⟨h, ⟨ring.length, hret⟩, .inr ⟨⟨ring', hi'⟩, fun c hc => hap c (List.mem_of_mem_erase hc)⟩⟩

/-- A header is not in a block of the program. -/
theorem Inv.not_owns {h : Heap} {ring : List Block} {g : List Span} {live : List Live} (hi : Inv base headerSize h ring (live.map Live.block) g)
    (hap : ∀ b ∈ live, b.Given) {c : Block} (hc : c ∈ ring ++ live.map Live.block) {b : Live} (hb : b ∈ live) :
    ¬ b.Owns c.addr := by
  have hback : b.block.addr + headerSize = b.ap := Nat.sub_add_cancel (hap b hb).header
  have hmem : b.block ∈ live.map Live.block := List.mem_map_of_mem hb
  have hself := c.le_after
  unfold Live.Owns
  rw [headerSize_eq] at hback
  have hout : c = b.block ∨ c ∈ ring ++ (live.map Live.block).erase b.block := by
    rcases List.mem_append.mp hc with hc | hc
    · exact .inr (by simp [hc])
    · rcases List.mem_cons.mp ((List.perm_cons_erase hmem).mem_iff.mp hc) with rfl | hc
      · exact .inl rfl
      · exact .inr (by simp [hc])
  rcases hout with rfl | hout
  · omega
  · rcases (hi.perm (List.perm_cons_erase hmem)).outside hout with hle | hle <;> omega

theorem Fine.store (hw : Fine base got w) {h : Heap} (hs : Stored base got w h) : Fine base got ⟨h, w.kern, w.live⟩ := by
  rcases hw with hf | ⟨⟨ring, hi⟩, hap⟩
  · exact .inl ⟨hs.freep.trans hf.freep, hf.live, hf.got⟩
  · have hkept : ∀ c ∈ ring ++ w.live.map Live.block, h.ptr c.addr = w.heap.ptr c.addr ∧ h.size c.addr = w.heap.size c.addr := by
      intro c hc
      by_cases hroot : c = root base
      · rw [hroot]
        exact hs.base
      · have hproper : c.Proper base headerSize := by
          rcases List.mem_append.mp hc with hc | hc
          · exact (hi.proper c hc).resolve_left hroot
          · exact hi.proper_used c hc
        refine hs.kept c.addr hproper.aligned ?_ fun b hb => hi.not_owns hap hc hb
        have hu := hproper.units
        rw [← hi.all]
        refine hits_pos_iff.mpr ⟨c.span, List.mem_map_of_mem hc, Nat.le_refl _, ?_⟩
        simp only [Block.span, headerSize_eq]
        omega
    refine .inr ⟨⟨ring, ?_⟩, hap⟩
    constructor
    · exact hi.null
    · exact hi.first
    · exact hi.proper
    · exact hi.proper_used
    · exact fun c hc => (hkept c hc).2.trans (hi.sizes c hc)
    · have hcircle := hi.circle
      cases hring : ring with
      | nil => trivial
      | cons c rest =>
        rw [hring] at hcircle
        apply hcircle.congr
        intro x hx
        have hx : x ∈ (c :: rest).map Block.addr := hx
        obtain ⟨d, hd, rfl⟩ := List.mem_map.mp hx
        exact (hkept d (by rw [hring]; exact List.mem_append_left _ hd)).1
    · exact hs.freep ▸ hi.freep
    · exact hi.apart
    · exact hi.all
    · exact hi.once

theorem Fine.step (hbase : 0 < base) (hG : Grants base headerSize sbrk got) (hw : Fine base got w) (hs : Step base sbrk got w w') :
    Fine base got w' := by
  cases hs with
  | malloc nbytes ap h s huint hfew hret =>
    obtain ⟨ap', h', s', hret', hfine⟩ := hw.malloc hbase hG huint hfew
    cases hret.unique hret'
    exact hfine
  | free b h hb hret =>
    obtain ⟨h', hret', hfine⟩ := hw.free hb
    cases hret.unique hret'
    exact hfine
  | store h hstored => exact hw.store hstored
  | other s hsame =>
    rcases hw with hf | ⟨⟨ring, hi⟩, hap⟩
    · exact .inl ⟨hf.freep, hf.live, hsame.trans hf.got⟩
    · refine .inr ⟨⟨ring, ?_⟩, hap⟩
      show Inv base headerSize w.heap ring _ (got s)
      rw [hsame]
      exact hi

theorem Fine.run (hbase : 0 < base) (hG : Grants base headerSize sbrk got) (hw : Fine base got w)
    (hrun : Relation.ReflTransGen (Step base sbrk got) w w') : Fine base got w' := by
  induction hrun with
  | refl => exact hw
  | tail _ hs ih => exact ih.step hbase hG hs

/-! ### What holds in every run -/

/-- What is promised of a program's blocks and of the free list. -/
structure Sound (base : Nat) (got : σ → List Span) (w : World σ) : Prop where
  aligned : ∀ b ∈ w.live, b.ap % headerSize = 0
  holds : ∀ b ∈ w.live, b.nbytes ≤ headerSize * (w.heap.size (b.ap - headerSize) - 1)
  inside : ∀ b ∈ w.live, ∀ x, b.ap ≤ x → x < b.ap + b.nbytes → 0 < hits (got w.kern) x
  disjoint : w.live.Pairwise fun b c => Apart b.block.span c.block.span
  list : Fresh got w ∨ ∃ ring, ring.head? = some (root base) ∧ (∀ b ∈ ring, w.heap.size b.addr = b.units) ∧
    Circle w.heap.ptr (ring.map Block.addr) ∧ w.heap.freep ∈ ring.map Block.addr ∧
    (ring.Pairwise fun b c => b.after < c.addr) ∧
    ∀ x, hits ((ring ++ w.live.map Live.block).map Block.span) x = hits (got w.kern) x ∧ hits (got w.kern) x ≤ 1

theorem Live.Given.holds {b : Live} (hb : b.Given) : b.nbytes ≤ headerSize * (b.block.units - 1) := by
  show b.nbytes ≤ headerSize * (units b.nbytes - 1)
  rw [units_of_lt hb.uint, headerSize_eq]
  omega

theorem Fine.sound (hw : Fine base got w) : Sound base got w := by
  rcases hw with hf | ⟨⟨ring, hi⟩, hgiven⟩
  · have hlive := hf.live
    exact ⟨by simp [hlive], by simp [hlive], by simp [hlive], by simp [hlive], .inl hf⟩
  · have hback : ∀ b ∈ w.live, b.block.addr + headerSize = b.ap := fun b hb => Nat.sub_add_cancel (hgiven b hb).header
    have hproper : ∀ b ∈ w.live, b.block.Proper base headerSize := fun b hb => hi.proper_used _ (List.mem_map_of_mem hb)
    constructor
    · intro b hb
      rw [← hback b hb, Nat.add_mod_right]
      exact (hproper b hb).aligned
    · intro b hb
      have hsize : w.heap.size b.block.addr = b.block.units := hi.sizes _ (List.mem_append_right _ (List.mem_map_of_mem hb))
      have haddr : b.ap - headerSize = b.block.addr := rfl
      rw [haddr, hsize]
      exact (hgiven b hb).holds
    · intro b hb x hle hlt
      have hholds := (hgiven b hb).holds
      have hap := hback b hb
      have hu := (hproper b hb).units
      rw [← hi.all]
      refine hits_pos_iff.mpr ⟨b.block.span, ?_, ?_⟩
      · exact List.mem_map_of_mem (List.mem_append_right _ (List.mem_map_of_mem hb))
      · simp only [Block.span, Span.Holds, headerSize_eq] at hholds hap ⊢
        omega
    · have hone : ∀ x, hits ((w.live.map Live.block).map Block.span) x ≤ 1 := by
        intro x
        have hall := hi.all x
        have hone := hi.once x
        rw [List.map_append, hits_append] at hall
        omega
      have hpos : ∀ s ∈ (w.live.map Live.block).map Block.span, 0 < s.2 := by
        intro s hs
        obtain ⟨c, hc, rfl⟩ := List.mem_map.mp hs
        have hu := (hi.proper_used c hc).units
        simp only [Block.span, headerSize_eq]
        omega
      have hdis := disjoint_of_hits hone hpos
      rwa [List.map_map, List.pairwise_map] at hdis
    · exact .inr ⟨ring, hi.first, fun b hb => hi.sizes b (List.mem_append_left _ hb), hi.circle, hi.freep, hi.apart,
        fun x => ⟨hi.all x, hi.once x⟩⟩

/-- In every run of a program that frees only what it has, its blocks and the free list are sound, and the next call
returns. -/
theorem heap_sound (hbase : 0 < base) (hG : Grants base headerSize sbrk got) (hfresh : Fresh got w)
    (hrun : Relation.ReflTransGen (Step base sbrk got) w w') :
    Sound base got w' ∧
      (∀ nbytes, nbytes < 2 ^ 32 → units nbytes < 2 ^ 27 →
        ∃ out, Returns (fun rounds => malloc base sbrk rounds w'.heap w'.kern nbytes) out) ∧
      ∀ b ∈ w'.live, ∃ h, Returns (fun rounds => free rounds w'.heap b.ap) h := by
  have hfine : Fine base got w' := Fine.run hbase hG (.inl hfresh) hrun
  refine ⟨hfine.sound, fun nbytes huint hfew => ?_, fun b hb => ?_⟩
  · obtain ⟨ap, h, s, hret, -⟩ := hfine.malloc hbase hG huint hfew
    exact ⟨_, hret⟩
  · obtain ⟨h, hret, -⟩ := hfine.free hb
    exact ⟨h, hret⟩

/-- Memory from 4096 on, one stretch behind the other, as long as there is any. -/
def bump (n : Int) (s : List Span) : Option (Option Nat × List Span) :=
  let top := (s.foldr (fun r top => max top (r.1 + r.2)) 4096 + 15) / 16 * 16
  if top + n.toNat ≤ 2 ^ 31 then some (some top, (top, n.toNat) :: s) else some (none, s)

theorem bump_grants : Grants 1024 headerSize bump fun s => s := by
  intro n s hpos hlt
  have htop : ∀ s : List Span, 4096 ≤ s.foldr (fun r top => max top (r.1 + r.2)) 4096 ∧
      ∀ r ∈ s, r.1 + r.2 ≤ s.foldr (fun r top => max top (r.1 + r.2)) 4096 := by
    intro s
    induction s with
    | nil => simp
    | cons r s ih =>
      refine ⟨Nat.le_trans ih.1 (Nat.le_max_left _ _), fun t ht => ?_⟩
      rcases List.mem_cons.mp ht with rfl | ht
      · exact Nat.le_max_right _ _
      · exact Nat.le_trans (ih.2 t ht) (Nat.le_max_left _ _)
  obtain ⟨hlow, hhigh⟩ := htop s
  unfold bump
  rw [Int.toNat_natCast]
  simp only
  split
  next hroom =>
    refine ⟨_, _, rfl, .grows _ ?_ (Nat.mul_mod_left _ _) (fun r hr => ?_) ?_⟩
    · simp only [headerSize_eq]
      omega
    · have hle := hhigh r hr
      omega
    · omega
  next => exact ⟨_, _, rfl, .fails⟩

/-- Before the first call, with nothing in memory. -/
def atStart : World (List Span) := ⟨⟨fun _ => 0, fun _ => 0, 0⟩, [], []⟩

/-- The addresses of 100 bytes and of 200 bytes. -/
def twice (rounds : Nat) : Option (Nat × Nat) := do
  let (first, h, s) ← malloc 1024 bump rounds atStart.heap atStart.kern 100
  let (second, _, _) ← malloc 1024 bump rounds h s 200
  return (first, second)

theorem twice_eq (k : Nat) : twice (k + 5) = some (69520, 69296) := rfl

/-- A program that has asked for 100 bytes and for 200, and has given the first block back. -/
theorem heap_sound_bump : ∃ w, Relation.ReflTransGen (Step 1024 bump fun s => s) atStart w ∧ w.live = [⟨69296, 200⟩] ∧
    Sound 1024 (fun s => s) w := by
  have hfresh : Fresh (fun s => s) atStart := ⟨rfl, rfl, rfl⟩
  obtain ⟨-, hmalloc, -⟩ := heap_sound (by decide) bump_grants hfresh .refl
  obtain ⟨⟨first, h₁, s₁⟩, n₁, hn₁⟩ := hmalloc 100 (by decide) (by decide)
  have hrun₁ : Relation.ReflTransGen (Step 1024 bump fun s => s) atStart ⟨h₁, s₁, if first = 0 then [] else [⟨first, 100⟩]⟩ :=
    .single (.malloc 100 first h₁ s₁ (by decide) (by decide) ⟨n₁, hn₁⟩)
  obtain ⟨-, hmalloc, -⟩ := heap_sound (by decide) bump_grants hfresh hrun₁
  obtain ⟨⟨second, h₂, s₂⟩, n₂, hn₂⟩ := hmalloc 200 (by decide) (by decide)
  have haddr : (first, second) = (69520, 69296) := by
    have hfirst : malloc 1024 bump (n₁ + n₂ + 5) atStart.heap atStart.kern 100 = some (first, h₁, s₁) := hn₁ _ (by omega)
    have hsecond : malloc 1024 bump (n₁ + n₂ + 5) h₁ s₁ 200 = some (second, h₂, s₂) := hn₂ _ (by omega)
    have heq := twice_eq (n₁ + n₂)
    unfold twice at heq
    rw [hfirst] at heq
    change (malloc 1024 bump (n₁ + n₂ + 5) h₁ s₁ 200).bind _ = _ at heq
    rw [hsecond] at heq
    exact Option.some.inj heq
  obtain ⟨rfl, rfl⟩ := Prod.mk.inj haddr
  have hrun₂ : Relation.ReflTransGen (Step 1024 bump fun s => s) atStart ⟨h₂, s₂, [⟨69296, 200⟩, ⟨69520, 100⟩]⟩ :=
    hrun₁.tail (.malloc 200 69296 h₂ s₂ (by decide) (by decide) ⟨n₂, hn₂⟩)
  have hmem : (⟨69520, 100⟩ : Live) ∈ [⟨69296, 200⟩, ⟨69520, 100⟩] := by decide
  obtain ⟨-, -, hfree⟩ := heap_sound (by decide) bump_grants hfresh hrun₂
  obtain ⟨h₃, hh₃⟩ := hfree ⟨69520, 100⟩ hmem
  have hrun₃ := hrun₂.tail (.free ⟨69520, 100⟩ h₃ hmem hh₃)
  exact ⟨_, hrun₃, rfl, (heap_sound (by decide) bump_grants hfresh hrun₃).1⟩

end Farron.Umalloc
