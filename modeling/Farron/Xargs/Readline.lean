import Farron.Kernel.Common
import Mathlib.Data.UInt
import Mathlib.Logic.Function.Basic

/-! How `xargs` reads lines, from `user/xargs.c`.

`readline` reads one byte at a time, straight to where it is to stand. What the reads return is given as a
sequence, so a failure can come at any point; a read that fails or finds the end stores nothing. Each byte is stored
before the loop looks whether there was room for it, only a newline makes it terminate the line, and a read that
fails counts as one that has stored the byte that stands there. So the line is right if and only if a newline ends
it in time and no read fails but behind an empty line (`lineMeets_iff`). -/
namespace Farron.Xargs

/-- What `read(fd, p, 1)` does: it stores a byte and returns 1, or returns 0 or -1. -/
inductive Got
  | byte (c : UInt8)
  | eof
  | fail
  deriving DecidableEq

/-- The memory, the pointer `p`, and the addresses written so far. -/
structure Scan where
  mem : Nat → UInt8
  p : Nat
  writes : List Nat

namespace Scan

/-- `*p = c`. -/
def put (s : Scan) (c : UInt8) : Scan := { s with mem := Function.update s.mem s.p c, writes := s.p :: s.writes }

def next (s : Scan) : Scan := { s with p := s.p + 1 }

@[simp] theorem put_p (s : Scan) (c : UInt8) : (s.put c).p = s.p := rfl
@[simp] theorem put_writes (s : Scan) (c : UInt8) : (s.put c).writes = s.p :: s.writes := rfl
@[simp] theorem put_mem (s : Scan) (c : UInt8) : (s.put c).mem s.p = c := by simp [put]
theorem put_mem_ne (s : Scan) (c : UInt8) {a : Nat} (h : a ≠ s.p) : (s.put c).mem a = s.mem a := by simp [put, h]
@[simp] theorem next_p (s : Scan) : s.next.p = s.p + 1 := rfl
@[simp] theorem next_mem (s : Scan) : s.next.mem = s.mem := rfl
@[simp] theorem next_writes (s : Scan) : s.next.writes = s.writes := rfl

end Scan

/-- What a read leaves. -/
def Got.store : Got → Scan → Scan
  | .byte c, s => s.put c
  | _, s => s

/-- The loop of `readline`; `k` is how many reads there have been. Nothing bounds it, so `fuel` does. -/
def readlineLoop (input : Nat → Got) (buf len : Nat) : Nat → Nat → Scan → Option Scan
  | 0, _, _ => none
  | fuel + 1, k, s =>
    if input k = .eof then some s
    else if s.p < buf + len then
      if ((input k).store s).mem s.p = newline then
        if s.p = buf then readlineLoop input buf len fuel (k + 1) ((input k).store s)
        else some (((input k).store s).put 0)
      else readlineLoop input buf len fuel (k + 1) ((input k).store s).next
    else some ((input k).store s)

theorem readlineLoop_zero (input : Nat → Got) (buf len k : Nat) (s : Scan) : readlineLoop input buf len 0 k s = none := rfl

/-- One round of the loop. -/
theorem readlineLoop_succ (input : Nat → Got) (buf len fuel k : Nat) (s : Scan) : readlineLoop input buf len (fuel + 1) k s =
    if input k = .eof then some s
    else if s.p < buf + len then
      if ((input k).store s).mem s.p = newline then
        if s.p = buf then readlineLoop input buf len fuel (k + 1) ((input k).store s)
        else some (((input k).store s).put 0)
      else readlineLoop input buf len fuel (k + 1) ((input k).store s).next
    else some ((input k).store s) := rfl

/-- `readline`: what it leaves, and what it returns. -/
def readline (input : Nat → Got) (buf len fuel : Nat) (mem : Nat → UInt8) : Option (Scan × Nat) :=
  (readlineLoop input buf len fuel 0 ⟨mem, buf, []⟩).map fun s => (s, if s.p = buf then 0 else s.p - buf)

/-! ### What is meant -/

/-- From read `k` on a line goes on with the characters `cs`, if it is cut after `room`. -/
inductive Rest (input : Nat → Got) : Nat → Nat → List UInt8 → Prop
  | cut (k : Nat) : Rest input k 0 []
  | newline {k : Nat} (room : Nat) (h : input k = .byte newline) : Rest input k room []
  | eof {k : Nat} (room : Nat) (h : input k = .eof) : Rest input k room []
  | fail {k room : Nat} {cs : List UInt8} (h : input k = .fail) (rest : Rest input (k + 1) room cs) : Rest input k room cs
  | char {k room : Nat} {c : UInt8} {cs : List UInt8} (h : input k = .byte c) (hc : c ≠ Farron.newline)
      (rest : Rest input (k + 1) room cs) : Rest input k (room + 1) (c :: cs)

/-- From read `k` on the next line that is not empty is `cs`, cut after `room` characters. -/
inductive Next (input : Nat → Got) : Nat → Nat → List UInt8 → Prop
  | blank {k room : Nat} {cs : List UInt8} (h : input k = .byte newline) (next : Next input (k + 1) room cs) : Next input k room cs
  | fail {k room : Nat} {cs : List UInt8} (h : input k = .fail) (next : Next input (k + 1) room cs) : Next input k room cs
  | line {k room : Nat} {c : UInt8} {cs : List UInt8} (h : input k = .byte c) (hc : c ≠ newline)
      (rest : Rest input k room cs) : Next input k room cs

/-- From read `k` on there is no other line. -/
inductive AtEnd (input : Nat → Got) : Nat → Prop
  | eof {k : Nat} (h : input k = .eof) : AtEnd input k
  | blank {k : Nat} (h : input k = .byte newline) (next : AtEnd input (k + 1)) : AtEnd input k
  | fail {k : Nat} (h : input k = .fail) (next : AtEnd input (k + 1)) : AtEnd input k

/-- What a call is to leave and return. -/
structure LineRead (input : Nat → Got) (buf len : Nat) (s : Scan) (ret : Nat) : Prop where
  inside : ∀ a ∈ s.writes, buf ≤ a ∧ a < buf + len
  result : ret = 0 ∧ AtEnd input 0 ∨ ∃ cs, Next input 0 (len - 1) cs ∧ ret = cs.length ∧
    (∀ i c, cs[i]? = some c → s.mem (buf + i) = c) ∧ s.mem (buf + cs.length) = 0

/-- Whatever is in the buffer, and wherever it is, a call returns and leaves what it is to leave. -/
def LineMeets (input : Nat → Got) (len : Nat) : Prop :=
  ∀ buf mem, ∃ fuel s ret, readline input buf len fuel mem = some (s, ret) ∧ LineRead input buf len s ret

/-- A read that passes over an empty line, or fails behind one. -/
def Skips (input : Nat → Got) (k : Nat) : Prop := input k = .byte newline ∨ input k = .fail ∧ 0 < k

/-- A read of a character of a line. -/
def IsChar (input : Nat → Got) (k : Nat) : Prop := ∃ c, input k = .byte c ∧ c ≠ newline

/-- No read fails but behind an empty line, and then there is the end, or a line that a newline ends and the buffer has
room for. -/
def Tame (input : Nat → Got) (len : Nat) : Prop :=
  ∃ k, (∀ i, i < k → Skips input i) ∧ (input k = .eof ∨
    ∃ n, 0 < n ∧ n < len ∧ (∀ i, i < n → IsChar input (k + i)) ∧ input (k + n) = .byte newline)

/-! ### The next line is one -/

section Lines
variable {input : Nat → Got} {k n room : Nat} {cs cs' : List UInt8}

theorem Rest.unique (h : Rest input k room cs) (h' : Rest input k room cs') : cs = cs' := by
  induction h generalizing cs' with
  | cut k =>
    generalize hr : 0 = r at h'
    induction h' with
    | cut | newline | eof => rfl
    | fail _ _ ih => exact ih hr
    | char => cases hr
  | newline room h => cases h' <;> simp_all
  | eof room h => cases h' <;> simp_all
  | fail h rest ih =>
    cases h' with
    | cut => exact ih (.cut _)
    | newline _ h' | eof _ h' => simp_all
    | fail _ rest' => exact ih rest'
    | char h' => simp_all
  | char h hc rest ih =>
    cases h' with
    | newline _ h' | eof _ h' => simp_all
    | fail h' => simp_all
    | char h' _ rest' =>
      obtain rfl : _ = _ := by simpa [h] using h'
      rw [ih rest']

theorem Next.unique (h : Next input k room cs) (h' : Next input k room cs') : cs = cs' := by
  induction h generalizing cs' with
  | blank h next ih =>
    cases h' with
    | blank _ next' => exact ih next'
    | fail h' => simp_all
    | line h' hc' => simp_all
  | fail h next ih =>
    cases h' with
    | fail _ next' => exact ih next'
    | blank h' | line h' => simp_all
  | line h hc rest =>
    cases h' with
    | line _ _ rest' => exact rest.unique rest'
    | blank h' | fail h' => simp_all

theorem Rest.length_le (h : Rest input k room cs) : cs.length ≤ room := by
  induction h with
  | cut | newline | eof => simp
  | fail _ _ ih => exact ih
  | char _ _ _ ih => simpa using ih

theorem Next.length_le (h : Next input k room cs) : cs.length ≤ room := by
  induction h with
  | blank _ _ ih | fail _ _ ih => exact ih
  | line _ _ rest => exact rest.length_le

end Lines

/-! ### The loop -/

/-- The loop, from the `k`-th read on, comes to an end. -/
def Ends (input : Nat → Got) (buf len k : Nat) (s s' : Scan) : Prop := ∃ fuel, readlineLoop input buf len fuel k s = some s'

section Loop
variable {input : Nat → Got} {buf len k n : Nat} {s s' : Scan} {c : UInt8}

theorem ends_iff : Ends input buf len k s s' ↔ ∃ fuel, readlineLoop input buf len (fuel + 1) k s = some s' := by
  constructor
  · rintro ⟨fuel, h⟩
    cases fuel with
    | zero => simp [readlineLoop_zero] at h
    | succ fuel => exact ⟨fuel, h⟩
  · rintro ⟨fuel, h⟩
    exact ⟨fuel + 1, h⟩

theorem ends_eof (h : input k = .eof) : Ends input buf len k s s' ↔ s' = s := by
  simp [ends_iff, readlineLoop_succ, h, eq_comm]

/-- At the start of the line, where a newline stands after the read. -/
theorem ends_blank (h : input k ≠ .eof) (hp : s.p = buf) (hlen : 0 < len) (hn : ((input k).store s).mem s.p = newline) :
    Ends input buf len k s s' ↔ Ends input buf len (k + 1) ((input k).store s) s' := by
  have hroom : buf < buf + len := by omega
  have hn' : ((input k).store s).mem buf = newline := hp ▸ hn
  rw [ends_iff]
  simp only [readlineLoop_succ, h, hp, hroom, hn', if_true, if_false]
  rfl

/-- Further on, a newline ends the line. -/
theorem ends_newline (h : input k = .byte newline) (hp : s.p ≠ buf) (hroom : s.p < buf + len) :
    Ends input buf len k s s' ↔ s' = (s.put newline).put 0 := by
  simp [ends_iff, readlineLoop_succ, h, hp, hroom, Got.store, eq_comm]

/-- Where something else stands after the read, the pointer goes on. -/
theorem ends_on (h : input k ≠ .eof) (hroom : s.p < buf + len) (hc : ((input k).store s).mem s.p ≠ newline) :
    Ends input buf len k s s' ↔ Ends input buf len (k + 1) ((input k).store s).next s' := by
  rw [ends_iff]
  simp only [readlineLoop_succ, h, hroom, hc, if_true, if_false]
  rfl

/-- Behind the buffer. -/
theorem ends_over (h : input k ≠ .eof) (hp : s.p = buf + len) : Ends input buf len k s s' ↔ s' = (input k).store s := by
  simp [ends_iff, readlineLoop_succ, h, hp, eq_comm]

theorem store_p (g : Got) (s : Scan) : (g.store s).p = s.p := by
  cases g <;> rfl

theorem store_mem_ne (g : Got) (s : Scan) {a : Nat} (h : a ≠ s.p) : (g.store s).mem a = s.mem a := by
  cases g with
  | byte c => exact s.put_mem_ne c h
  | eof => rfl
  | fail => rfl

/-- The pointer does not come back, and what is in front of it stays. -/
theorem Ends.kept (h : Ends input buf len k s s') : s.p ≤ s'.p ∧ ∀ a, a < s.p → s'.mem a = s.mem a := by
  obtain ⟨fuel, h⟩ := h
  induction fuel generalizing k s with
  | zero => simp [readlineLoop_zero] at h
  | succ fuel ih =>
    have hstore : ∀ a, a < s.p → ((input k).store s).mem a = s.mem a := fun a ha => store_mem_ne _ _ (by omega)
    rw [readlineLoop_succ] at h
    split_ifs at h
    · cases h
      exact ⟨le_refl _, fun _ _ => rfl⟩
    · obtain ⟨hle, hmem⟩ := ih h
      rw [store_p] at hle hmem
      exact ⟨hle, fun a ha => (hmem a ha).trans (hstore a ha)⟩
    · cases h
      refine ⟨by simp [store_p], fun a ha => ?_⟩
      rw [Scan.put_mem_ne _ _ (by rw [store_p]; omega), hstore a ha]
    · obtain ⟨hle, hmem⟩ := ih h
      rw [Scan.next_p, store_p] at hle hmem
      exact ⟨by omega, fun a ha => (hmem a (by omega)).trans (hstore a ha)⟩
    · cases h
      exact ⟨by simp [store_p], hstore⟩

/-- The state after the first `k` reads, which pass over empty lines. -/
theorem ends_skips (buf : Nat) (hlen : 0 < len) (hskip : ∀ i, i < k → Skips input i) (mem : Nat → UInt8) :
    ∃ s, s.p = buf ∧ (∀ a ∈ s.writes, a = buf) ∧ (∀ a, a ≠ buf → s.mem a = mem a) ∧
      s.mem buf = (if k = 0 then mem buf else newline) ∧
      ∀ s', Ends input buf len 0 ⟨mem, buf, []⟩ s' ↔ Ends input buf len k s s' := by
  induction k with
  | zero => exact ⟨⟨mem, buf, []⟩, rfl, by simp, fun _ _ => rfl, rfl, fun _ => Iff.rfl⟩
  | succ k ih =>
    obtain ⟨s, hp, hwrites, hmem, hbuf, hends⟩ := ih fun i hi => hskip i (by omega)
    have hstore : ((input k).store s).mem s.p = newline ∧ (∀ a ∈ ((input k).store s).writes, a = buf) := by
      rcases hskip k (by omega) with hn | ⟨hf, hpos⟩
      · rw [hn, Got.store, ← hp]
        exact ⟨s.put_mem newline, by simpa [hp] using hwrites⟩
      · rw [if_neg (by omega)] at hbuf
        simpa [hf, Got.store, hp, hbuf] using hwrites
    have hne : input k ≠ .eof := by
      rcases hskip k (by omega) with h | h <;> simp [h]
    refine ⟨(input k).store s, (store_p _ _).trans hp, hstore.2, fun a ha => ?_, ?_, fun s' => ?_⟩
    · rw [store_mem_ne _ _ (by rwa [hp]), hmem a ha]
    · simpa [hp] using hstore.1
    · rw [hends, ends_blank hne hp hlen hstore.1]

/-- The state after `n` more reads, of characters. -/
theorem ends_chars (buf len : Nat) (s : Scan) (hchar : ∀ i, i < n → IsChar input (k + i)) (hroom : s.p + n ≤ buf + len) :
    ∃ t, t.p = s.p + n ∧ (∀ a ∈ t.writes, a ∈ s.writes ∨ s.p ≤ a ∧ a < s.p + n) ∧
      (∀ a, a < s.p ∨ s.p + n ≤ a → t.mem a = s.mem a) ∧ (∀ i, i < n → input (k + i) = .byte (t.mem (s.p + i))) ∧
      ∀ s', Ends input buf len k s s' ↔ Ends input buf len (k + n) t s' := by
  induction n with
  | zero => exact ⟨s, rfl, fun a ha => .inl ha, fun _ _ => rfl, by simp, fun _ => Iff.rfl⟩
  | succ n ih =>
    obtain ⟨t, hp, hwrites, hmem, hline, hends⟩ := ih (fun i hi => hchar i (by omega)) (by omega)
    obtain ⟨c, hc, hne⟩ := hchar n (by omega)
    refine ⟨(t.put c).next, by simp [hp]; omega, fun a ha => ?_, fun a ha => ?_, fun i hi => ?_, fun s' => ?_⟩
    · rcases List.mem_cons.mp ha with rfl | ha
      · right
        omega
      · rcases hwrites a ha with h | h
        · exact .inl h
        · right
          omega
    · rw [Scan.next_mem, Scan.put_mem_ne _ _ (by omega), hmem a (by omega)]
    · by_cases hin : i < n
      · rw [Scan.next_mem, Scan.put_mem_ne _ _ (by omega)]
        exact hline i hin
      · obtain rfl : i = n := by omega
        rw [Scan.next_mem, ← hp, Scan.put_mem, hc]
    · rw [hends, ends_on (by simp [hc]) (by omega) (by simpa [hc, Got.store] using hne), hc]
      rfl

end Loop

/-! ### Whole calls -/

section Calls
variable {input : Nat → Got} {len : Nat}

theorem readline_iff {buf : Nat} {mem : Nat → UInt8} {s : Scan} {ret : Nat} :
    (∃ fuel, readline input buf len fuel mem = some (s, ret)) ↔ Ends input buf len 0 ⟨mem, buf, []⟩ s ∧ ret = s.p - buf := by
  have hret : (if s.p = buf then 0 else s.p - buf) = s.p - buf := by
    split_ifs with h
    · simp [h]
    · rfl
  constructor
  · rintro ⟨fuel, h⟩
    obtain ⟨s', hs, he⟩ := Option.map_eq_some_iff.mp h
    cases he
    exact ⟨⟨fuel, hs⟩, hret⟩
  · rintro ⟨⟨fuel, h⟩, rfl⟩
    exact ⟨fuel, by simp [readline, h, hret]⟩

theorem next_skips {k room : Nat} {cs : List UInt8} (hskip : ∀ i, i < k → Skips input i) (h : Next input k room cs) :
    Next input 0 room cs := by
  induction k with
  | zero => exact h
  | succ k ih =>
    refine ih (fun i hi => hskip i (by omega)) ?_
    rcases hskip k (by omega) with hn | ⟨hf, -⟩
    · exact .blank hn h
    · exact .fail hf h

theorem atEnd_skips {k : Nat} (hskip : ∀ i, i < k → Skips input i) (h : AtEnd input k) : AtEnd input 0 := by
  induction k with
  | zero => exact h
  | succ k ih =>
    refine ih (fun i hi => hskip i (by omega)) ?_
    rcases hskip k (by omega) with hn | ⟨hf, -⟩
    · exact .blank hn h
    · exact .fail hf h

theorem rest_chars {k n room : Nat} {f : Nat → UInt8} (hline : ∀ i, i < n → input (k + i) = .byte (f i) ∧ f i ≠ newline)
    (hend : input (k + n) = .byte newline) (hroom : n ≤ room) : Rest input k room ((List.range n).map f) := by
  induction n generalizing k f room with
  | zero => exact .newline room hend
  | succ n ih =>
    obtain ⟨room, rfl⟩ : ∃ r, room = r + 1 := ⟨room - 1, by omega⟩
    obtain ⟨hc, hne⟩ := hline 0 (by omega)
    rw [List.range_succ_eq_map, List.map_cons, List.map_map]
    refine .char hc hne (ih (fun i hi => ?_) ?_ (by omega))
    · rw [Nat.add_assoc, Nat.add_comm 1]
      exact hline (i + 1) (by omega)
    · rwa [Nat.add_assoc, Nat.add_comm 1]

theorem Tame.lineMeets (hlen : 1 ≤ len) (h : Tame input len) : LineMeets input len := by
  intro buf mem
  obtain ⟨k, hskip, hk⟩ := h
  obtain ⟨s, hp, hwrites, hmem, -, hends⟩ := ends_skips buf hlen hskip mem
  rcases hk with heof | ⟨n, hpos, hn, hchar, hend⟩
  · have hrun := (hends s).mpr ((ends_eof heof).mpr rfl)
    obtain ⟨fuel, hr⟩ := readline_iff.mpr ⟨hrun, rfl⟩
    refine ⟨fuel, s, _, hr, ⟨fun a ha => ?_, .inl ⟨by simp [hp], atEnd_skips hskip (.eof heof)⟩⟩⟩
    have := hwrites a ha
    omega
  · obtain ⟨t, htp, htw, htm, hline, hends'⟩ := ends_chars buf len s hchar (by omega)
    have hlast : t.p ≠ buf := by omega
    have hrun := (hends _).mpr ((hends' _).mpr ((ends_newline hend hlast (by omega)).mpr rfl))
    obtain ⟨fuel, hr⟩ := readline_iff.mpr ⟨hrun, rfl⟩
    have hchars : ∀ i, i < n → input (k + i) = .byte (t.mem (buf + i)) ∧ t.mem (buf + i) ≠ newline := by
      intro i hi
      have hi' := hline i hi
      rw [hp] at hi'
      obtain ⟨c, hc, hne⟩ := hchar i hi
      rw [hi'] at hc
      cases hc
      exact ⟨hi', hne⟩
    have hrest := rest_chars hchars hend (by omega : n ≤ len - 1)
    refine ⟨fuel, _, _, hr, ⟨fun a ha => ?_, .inr ⟨_, next_skips hskip (.line (hchars 0 hpos).1 (hchars 0 hpos).2 hrest), ?_, ?_, ?_⟩⟩⟩
    · simp only [Scan.put_writes, Scan.put_p, List.mem_cons] at ha
      rcases ha with rfl | rfl | ha
      · omega
      · omega
      · rcases htw a ha with ha | ha
        · have := hwrites a ha
          omega
        · omega
    · simp [htp, hp]
    · intro i c hi
      obtain ⟨hin, hc⟩ : i < n ∧ t.mem (buf + i) = c := by
        simpa [List.getElem?_eq_some_iff] using hi
      rw [Scan.put_mem_ne _ _ (by simp; omega), Scan.put_mem_ne _ _ (by omega)]
      exact hc
    · have hnul : buf + ((List.range n).map fun i => t.mem (buf + i)).length = (t.put newline).p := by simp [htp, hp]
      rw [hnul, Scan.put_mem]

/-- While there are only empty lines, the loop goes on. -/
theorem not_ends_skips {buf fuel k : Nat} {s : Scan} (hlen : 0 < len) (hskip : ∀ i, Skips input i) (hp : s.p = buf)
    (hbuf : 0 < k → s.mem buf = newline) : readlineLoop input buf len fuel k s = none := by
  induction fuel generalizing k s with
  | zero => rfl
  | succ fuel ih =>
    have hroom : buf < buf + len := by omega
    have hne : input k ≠ .eof := by rcases hskip k with h | h <;> simp [h]
    have hn : ((input k).store s).mem buf = newline := by
      rcases hskip k with h | ⟨h, hpos⟩
      · simp [h, Got.store, ← hp]
      · simp [h, Got.store, hbuf hpos]
    simp only [readlineLoop_succ, hne, hp, hroom, hn, if_true, if_false]
    exact ih (by rw [store_p, hp]) fun _ => hn

/-- After the empty lines and `n` characters, in a buffer full of `x`. -/
theorem LineMeets.reached (hlen : 1 ≤ len) (h : LineMeets input len) {k n : Nat} (hskip : ∀ i, i < k → Skips input i)
    (hchar : ∀ i, i < n → IsChar input (k + i)) (hn : n ≤ len) (hk : n = 0 → k = 0) (x : UInt8) :
    ∃ t s', t.p = n ∧ t.mem n = x ∧ Ends input 0 len (k + n) t s' ∧ LineRead input 0 len s' s'.p := by
  obtain ⟨fuel, s', ret, hr, hread⟩ := h 0 fun _ => x
  obtain ⟨hrun, rfl⟩ := readline_iff.mp ⟨fuel, hr⟩
  obtain ⟨s, hp, -, hmem, hbuf, hends⟩ := ends_skips 0 hlen hskip fun _ => x
  obtain ⟨t, htp, -, htm, -, hends'⟩ := ends_chars 0 len s hchar (by omega)
  refine ⟨t, s', by omega, ?_, (hends' s').mp ((hends s').mp hrun), hread⟩
  rw [htm n (by omega)]
  by_cases h0 : n = 0
  · rw [h0, hbuf, if_pos (hk h0)]
  · exact hmem n h0

/-- A read that fails is taken for one that has stored what stands there, which stays in the line. -/
theorem LineMeets.stale (hlen : 1 ≤ len) (h : LineMeets input len) {k n : Nat} (hskip : ∀ i, i < k → Skips input i)
    (hchar : ∀ i, i < n → IsChar input (k + i)) (hn : n < len) (hk : n = 0 → k = 0) (hfail : input (k + n) = .fail)
    {x : UInt8} (hx : x ≠ newline) : ∃ cs, Next input 0 (len - 1) cs ∧ cs[n]? = some x := by
  obtain ⟨t, s', hp, hmem, hends, hread⟩ := h.reached hlen hskip hchar hn.le hk x
  have hstore : (input (k + n)).store t = t := by rw [hfail]; rfl
  rw [ends_on (by simp [hfail]) (by omega) (by rw [hstore, hp, hmem]; exact hx), hstore] at hends
  obtain ⟨hle, hkept⟩ := hends.kept
  have hlast : s'.mem n = x := by
    rw [hkept n (by simp [hp]), Scan.next_mem, hmem]
  rcases hread.result with ⟨hzero, -⟩ | ⟨cs, hnext, hlength, hcs, -⟩
  · simp only [Scan.next_p] at hle
    omega
  · have hin : n < cs.length := by
      simp only [Scan.next_p] at hle
      omega
    refine ⟨cs, hnext, ?_⟩
    have hget := hcs n cs[n] (List.getElem?_eq_getElem hin)
    rw [Nat.zero_add, hlast] at hget
    rw [List.getElem?_eq_getElem hin, hget]

theorem LineMeets.not_fail (hlen : 1 ≤ len) (h : LineMeets input len) {k n : Nat} (hskip : ∀ i, i < k → Skips input i)
    (hchar : ∀ i, i < n → IsChar input (k + i)) (hn : n < len) (hk : n = 0 → k = 0) : input (k + n) ≠ .fail := by
  intro hfail
  obtain ⟨cs, hcs, h1⟩ := h.stale hlen hskip hchar hn hk hfail (x := 1) (by decide)
  obtain ⟨cs', hcs', h2⟩ := h.stale hlen hskip hchar hn hk hfail (x := 2) (by decide)
  rw [hcs.unique hcs', h2] at h1
  exact absurd h1 (by decide)

theorem exists_least {P : Nat → Prop} (h : ¬ ∀ k, P k) : ∃ k, ¬ P k ∧ ∀ i, i < k → P i := by
  classical
  rw [not_forall] at h
  exact ⟨Nat.find h, Nat.find_spec h, fun i hi => not_not.mp (Nat.find_min h hi)⟩

theorem LineMeets.tame (hlen : 1 ≤ len) (h : LineMeets input len) : Tame input len := by
  by_cases hall : ∀ k, Skips input k
  · obtain ⟨fuel, s, ret, hr, -⟩ := h 0 fun _ => 1
    have hnone : readlineLoop input 0 len fuel 0 ⟨fun _ => 1, 0, []⟩ = none := not_ends_skips hlen hall rfl (by simp)
    simp [readline, hnone] at hr
  obtain ⟨k, hk, hskip⟩ := exists_least hall
  cases hg : input k with
  | eof => exact ⟨k, hskip, .inl hg⟩
  | fail =>
    have h0 : k = 0 := by
      by_contra hpos
      exact hk (.inr ⟨hg, by omega⟩)
    exact absurd hg (h.not_fail hlen hskip (n := 0) (by simp) hlen fun _ => h0)
  | byte c =>
    have hfirst : IsChar input k := ⟨c, hg, fun hc => hk (.inl (by rw [hg, hc]))⟩
    by_cases hlong : ∀ i, i < len → IsChar input (k + i)
    · -- the line fills the buffer
      obtain ⟨t, s', hp, -, hends, hread⟩ := h.reached hlen hskip hlong (le_refl _) (by omega) 1
      have hlast : s'.p = len := by
        by_cases heof : input (k + len) = .eof
        · rw [(ends_eof heof).mp hends, hp]
        · rw [(ends_over heof (by omega)).mp hends, store_p, hp]
      rcases hread.result with ⟨hzero, -⟩ | ⟨cs, hnext, hlength, -⟩
      · omega
      · have := hnext.length_le
        omega
    · obtain ⟨n, hn, hchar⟩ := exists_least hlong
      rw [Classical.not_imp] at hn
      replace hchar : ∀ i, i < n → IsChar input (k + i) := fun i hi => hchar i hi (by omega)
      have hpos : n ≠ 0 := fun h0 => hn.2 (by rwa [h0])
      cases hend : input (k + n) with
      | fail => exact absurd hend (h.not_fail hlen hskip hchar hn.1 fun h0 => absurd h0 hpos)
      | eof =>
        -- nothing ends the line
        obtain ⟨t, s', hp, hmem, hends, hread⟩ := h.reached hlen hskip hchar hn.1.le (fun h0 => absurd h0 hpos) 1
        rw [ends_eof hend] at hends
        subst hends
        rcases hread.result with ⟨hzero, -⟩ | ⟨cs, -, hlength, -, hnul⟩
        · omega
        · rw [Nat.zero_add, ← hlength, hp, hmem] at hnul
          exact absurd hnul (by decide)
      | byte d =>
        have hd : d = newline := by
          by_contra hne
          exact hn.2 ⟨d, hend, hne⟩
        exact ⟨k, hskip, .inr ⟨n, by omega, hn.1, hchar, by rw [hend, hd]⟩⟩

end Calls

/-- **`readline` reads the next line** if and only if no read fails but behind an empty line, and what comes is the end of
the input, or a line that a newline ends and the buffer has room for. -/
theorem lineMeets_iff (input : Nat → Got) {len : Nat} (hlen : 1 ≤ len) : LineMeets input len ↔ Tame input len :=
  ⟨fun h => h.tame hlen, fun h => h.lineMeets hlen⟩

/-- An empty line, a failure, and the line `a`. -/
def lineA : Nat → Got
  | 0 => .byte newline
  | 1 => .fail
  | 2 => .byte 97
  | 3 => .byte newline
  | _ => .eof

theorem lineMeets_lineA : LineMeets lineA 2 := by
  refine (lineMeets_iff lineA (by decide)).mpr ⟨2, ?_, .inr ⟨1, by decide, by decide, ?_, rfl⟩⟩
  · intro i hi
    have h : i = 0 ∨ i = 1 := by omega
    rcases h with rfl | rfl
    · exact .inl rfl
    · exact .inr ⟨rfl, by decide⟩
  · intro i hi
    obtain rfl : i = 0 := by omega
    exact ⟨97, rfl, by decide⟩

/-- The line `a` without a newline. -/
def openA : Nat → Got
  | 0 => .byte 97
  | _ => .eof

theorem not_lineMeets : ¬ ∀ (input : Nat → Got) (len : Nat), 1 ≤ len → LineMeets input len := by
  intro h
  obtain ⟨k, hskip, hk⟩ := (h openA 2 (by decide)).tame (by decide)
  have h0 : k = 0 := by
    by_contra hpos
    rcases hskip 0 (by omega) with hn | ⟨-, hlt⟩
    · cases hn
    · omega
  subst h0
  rcases hk with heof | ⟨n, hpos, hn, -, hend⟩
  · cases heof
  · obtain rfl : n = 1 := by omega
    cases hend

end Farron.Xargs
