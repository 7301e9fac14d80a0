import Farron.Pipe.Pipe

/-! A pipe is a stream of bytes.

`Pipe.Stream` is what every section on the pipe keeps: the ring holds the bytes put and not
yet taken, each at its place, and the counters are the numbers of bytes put and taken,
as 32-bit words. `PipeKept` adds the two files: an end is open while somebody has it. -/
namespace Farron
open Resumption

/-! ### The ring -/

structure Pipe.Stream (p : Pipe) : Prop where
  nread : p.nread = u32 p.taken.length
  nwrite : p.nwrite = u32 p.put.length
  ring : ∃ rest, p.put = p.taken ++ rest ∧ rest.length ≤ pipeSize ∧
    ∀ k (hk : k < rest.length), p.data ((p.nread + k) % pipeSize) = rest[k]

theorem u32_mod (n : Nat) : u32 n % pipeSize = n % pipeSize :=
  Nat.mod_mod_of_dvd n ⟨2 ^ 23, by decide⟩

theorem u32_add (n k : Nat) : u32 (u32 n + k) = u32 (n + k) := Nat.mod_add_mod n (2 ^ 32) k

namespace Pipe.Stream
variable {p : Pipe}

/-- The slots of the ring, by the numbers of the bytes. -/
theorem slot (h : p.Stream) (k : Nat) : (p.nread + k) % pipeSize = (p.taken.length + k) % pipeSize := by
  rw [h.nread, Nat.add_mod, u32_mod, ← Nat.add_mod]

theorem fresh (data : Nat → UInt8) : (Pipe.fresh data).Stream :=
  ⟨rfl, rfl, [], rfl, Nat.zero_le _, fun k hk => absurd hk (Nat.not_lt_zero k)⟩

/-- The counters' distance is the number of bytes in the ring. -/
theorem length (h : p.Stream) {rest : List UInt8} (hput : p.put = p.taken ++ rest)
    (hrest : rest.length ≤ pipeSize) : u32 (p.nwrite + 2 ^ 32 - p.nread) = rest.length := by
  rw [h.nread, h.nwrite, hput, List.length_append]
  unfold u32 pipeSize at *
  omega

theorem empty_iff (h : p.Stream) {rest : List UInt8} (hput : p.put = p.taken ++ rest)
    (hrest : rest.length ≤ pipeSize) : p.empty ↔ rest = [] := by
  rw [Pipe.empty, h.nread, h.nwrite, hput, List.length_append, ← List.length_eq_zero_iff]
  unfold u32 pipeSize at *
  omega

theorem full_iff (h : p.Stream) {rest : List UInt8} (hput : p.put = p.taken ++ rest)
    (hrest : rest.length ≤ pipeSize) : p.full ↔ rest.length = pipeSize := by
  rw [Pipe.full, h.nread, h.nwrite, hput, List.length_append]
  unfold u32 pipeSize at *
  omega

/-- A byte put into a ring with room lands in a free slot. -/
theorem store (h : p.Stream) (hroom : ¬ p.full) (ch : UInt8) : (p.store ch).Stream := by
  obtain ⟨rest, hput, hrest, hdata⟩ := h.ring
  have hlt : rest.length < pipeSize := by
    have := (h.full_iff hput hrest).not.mp hroom
    omega
  have hslot : p.nwrite % pipeSize = (p.taken.length + rest.length) % pipeSize := by
    rw [h.nwrite, u32_mod, hput, List.length_append]
  refine ⟨h.nread, ?_, rest ++ [ch], ?_, ?_, ?_⟩
  · show u32 (p.nwrite + 1) = u32 (p.put ++ [ch]).length
    rw [h.nwrite, u32_add, List.length_append, List.length_singleton]
  · show p.put ++ [ch] = p.taken ++ (rest ++ [ch])
    rw [hput, List.append_assoc]
  · rw [List.length_append, List.length_singleton]
    omega
  · intro k hk
    show Function.update p.data (p.nwrite % pipeSize) ch ((p.nread + k) % pipeSize) = _
    rw [List.length_append, List.length_singleton] at hk
    rw [hslot, h.slot]
    by_cases hlast : k = rest.length
    · subst hlast
      rw [Function.update_self, List.getElem_concat_length rfl]
    · have hk' : k < rest.length := by omega
      have hne : (p.taken.length + k) % pipeSize ≠ (p.taken.length + rest.length) % pipeSize := by
        unfold pipeSize at *
        omega
      rw [Function.update_of_ne hne, ← h.slot, List.getElem_append_left hk']
      exact hdata k hk'

/-- The byte taken is the first of the ring. -/
theorem drop (h : p.Stream) (hsome : ¬ p.empty) : p.drop.Stream := by
  obtain ⟨rest, hput, hrest, hdata⟩ := h.ring
  cases rest with
  | nil => exact absurd ((h.empty_iff hput hrest).mpr rfl) hsome
  | cons ch rest =>
    have hnext : p.next = ch := by
      have := hdata 0 (Nat.zero_lt_succ _)
      rw [Nat.add_zero] at this
      exact this
    refine ⟨?_, h.nwrite, rest, ?_, Nat.le_of_succ_le hrest, ?_⟩
    · show u32 (p.nread + 1) = u32 (p.taken ++ [p.next]).length
      rw [h.nread, u32_add, List.length_append, List.length_singleton]
    · show p.put = p.taken ++ [p.next] ++ rest
      rw [hnext, List.append_assoc, hput]
      rfl
    · intro k hk
      show p.data ((u32 (p.nread + 1) + k) % pipeSize) = _
      have := hdata (k + 1) (Nat.succ_lt_succ hk)
      rw [List.getElem_cons_succ] at this
      rw [← this, Nat.add_mod, u32_mod, ← Nat.add_mod, Nat.add_right_comm, Nat.add_assoc]

theorem shut (h : p.Stream) (writable : Bool) : (p.shut writable).Stream := by
  cases writable with
  | false => exact ⟨h.nread, h.nwrite, h.ring⟩
  | true => exact ⟨h.nread, h.nwrite, h.ring⟩

end Pipe.Stream

/-! ### Who has the ends -/

/-- What a process has of the pipe: its descriptors, and an end that it is closing for
the last time. -/
structure PipeHold where
  ends : Ends
  closing : Option Bool

variable {ι : Type} [Fintype ι] [DecidableEq ι]

/-- The pipe and its files, for processes that have `own` of them. -/
structure PipeKept (d : PipeFiles) (own : ι → PipeHold) : Prop where
  stream : d.pipe.Stream
  ref : ∀ b, d.ref b = ∑ i, (own i).ends.count b
  shut : ∀ b, d.pipe.isOpen b = false → d.ref b = 0
  closing : ∀ i b, (own i).closing = some b → d.ref b = 0

namespace PipeKept
variable {d : PipeFiles} {own : ι → PipeHold}

omit [DecidableEq ι] in
theorem count_le (h : PipeKept d own) (i : ι) (b : Bool) : (own i).ends.count b ≤ d.ref b := by
  rw [h.ref]
  exact Finset.single_le_sum (f := fun i => (own i).ends.count b) (fun _ _ => Nat.zero_le _) (Finset.mem_univ i)

omit [DecidableEq ι] in
/-- An end that a process has is open. -/
theorem isOpen (h : PipeKept d own) {i : ι} {b : Bool} (hi : 0 < (own i).ends.count b) : d.pipe.isOpen b = true := by
  cases ho : d.pipe.isOpen b with
  | true => rfl
  | false =>
    have hle := h.count_le i b
    rw [h.shut b ho] at hle
    exact absurd hi (Nat.not_lt.mpr hle)

omit [DecidableEq ι] in
/-- A section on the ring. -/
theorem onPipe (h : PipeKept d own) {p : Pipe} (hp : p.Stream) (hopen : ∀ b, p.isOpen b = d.pipe.isOpen b) :
    PipeKept { d with pipe := p } own :=
  ⟨hp, h.ref, fun b hb => h.shut b ((hopen b).symm.trans hb), h.closing⟩

/-- A section on the counts: one process's descriptors change. -/
theorem setRef (h : PipeKept d own) {i : ι} {b : Bool} {n : Nat} {x : PipeHold}
    (hn : n + (own i).ends.count b = d.ref b + x.ends.count b)
    (hother : x.ends.count (!b) = (own i).ends.count (!b)) (hzero : d.ref b = 0 → n = 0)
    (hclosing : ∀ b', x.closing = some b' → b' = b ∧ n = 0) : PipeKept (d.setRef b n) (Function.update own i x) := by
  have hsum : ∀ b', ∑ j, (Function.update own i x j).ends.count b' + (own i).ends.count b' =
      d.ref b' + x.ends.count b' := by
    intro b'
    rw [h.ref]
    exact sum_update own i x fun y => y.ends.count b'
  have hsame : (d.setRef b n).ref b = n := by cases b <;> rfl
  have hne : (d.setRef b n).ref (!b) = d.ref (!b) := by cases b <;> rfl
  have hpipe : (d.setRef b n).pipe = d.pipe := by cases b <;> rfl
  have hkeep : ∀ b', d.ref b' = 0 → (d.setRef b n).ref b' = 0 := by
    intro b' hb'
    by_cases hbb : b' = b
    · subst hbb
      rw [hsame]
      exact hzero hb'
    · have : b' = !b := by
        cases b <;> cases b' <;> simp_all
      subst this
      rw [hne]
      exact hb'
  refine ⟨?_, fun b' => ?_, fun b' hb' => ?_, fun j b' hj => ?_⟩
  · rw [hpipe]
    exact h.stream
  · have := hsum b'
    by_cases hbb : b' = b
    · subst hbb
      rw [hsame]
      omega
    · have hb : b' = !b := by
        cases b <;> cases b' <;> simp_all
      subst hb
      rw [hne]
      omega
  · apply hkeep
    rw [hpipe] at hb'
    exact h.shut b' hb'
  · by_cases hji : j = i
    · subst hji
      rw [Function.update_self] at hj
      obtain ⟨rfl, hn0⟩ := hclosing b' hj
      rw [hsame]
      exact hn0
    · rw [Function.update_of_ne hji] at hj
      exact hkeep b' (h.closing j b' hj)

end PipeKept

end Farron
