import Farron.Console.Console
import Farron.Kernel.Wakeups
import Farron.Pipe.Stream
import Farron.Ring.Window

/-! The sections of the line discipline.

`Console.Kept` is what each of them keeps: the indices are the numbers of bytes taken,
committed and edited, as 32-bit words, and the ring shows the bytes between the first and the
last (`Window`). A read takes the committed bytes in order and ends where it should
(`ConsoleRead.Exact`), as long as what it takes is copied out. -/
namespace Farron
open Resumption Ring
variable {ι : Type} [DecidableEq ι]

/-! ### The ring -/

namespace Console

/-- `rest` is still to be read, `edit` is the line being edited. -/
structure Kept (d : Console ι) : Prop where
  r : d.r = u32 d.taken.length
  w : d.w = u32 d.committed.length
  shows : ∃ rest edit, d.committed = d.taken.map (·.2) ++ rest ∧ d.e = u32 (d.committed.length + edit.length) ∧
    Window inputBuf d.buf d.taken.length (rest ++ edit)

/-- What process `i` has taken. -/
def takenBy (d : Console ι) (i : ι) : List UInt8 := (d.taken.filter fun x => x.1 = i).map (·.2)

end Console

theorem u32_inputBuf (n : Nat) : u32 n % inputBuf = n % inputBuf := Nat.mod_mod_of_dvd n ⟨2 ^ 25, by decide⟩

theorem slot_inputBuf (n k : Nat) : (u32 n + k) % inputBuf = (n + k) % inputBuf := by
  rw [Nat.add_mod, u32_inputBuf, ← Nat.add_mod]

theorem ahead_uint {n k : Nat} (hk : k ≤ inputBuf) : ahead (u32 n) (u32 (n + k)) = k := by
  unfold ahead u32 inputBuf at *
  omega

theorem u32_pred {n : Nat} (hn : 0 < n) : u32 (u32 n + 2 ^ 32 - 1) = u32 (n - 1) := by
  unfold u32
  omega

namespace Console.Kept
variable {d : Console ι} (h : d.Kept)
include h

omit [DecidableEq ι] in
/-- How far the indices are apart. -/
theorem apart {rest edit : List UInt8} (hput : d.committed = d.taken.map (·.2) ++ rest)
    (he : d.e = u32 (d.committed.length + edit.length)) (hw : Window inputBuf d.buf d.taken.length (rest ++ edit)) :
    ahead d.r d.w = rest.length ∧ ahead d.w d.e = edit.length ∧ ahead d.r d.e = rest.length + edit.length ∧
      rest.length + edit.length ≤ inputBuf := by
  have hfits := hw.fits
  rw [List.length_append] at hfits
  have hlen : d.committed.length = d.taken.length + rest.length := by
    rw [hput, List.length_append, List.length_map]
  refine ⟨?_, ?_, ?_, hfits⟩
  · rw [h.r, h.w, hlen]
    exact ahead_uint (by omega)
  · rw [h.w, he]
    exact ahead_uint (by omega)
  · rw [h.r, he, hlen, Nat.add_assoc]
    exact ahead_uint hfits

omit [DecidableEq ι] in
theorem empty_iff {rest edit : List UInt8} (hput : d.committed = d.taken.map (·.2) ++ rest)
    (hw : Window inputBuf d.buf d.taken.length (rest ++ edit)) : d.r = d.w ↔ rest = [] := by
  have hfits := hw.fits
  rw [List.length_append] at hfits
  rw [h.r, h.w, hput, List.length_append, List.length_map, ← List.length_eq_zero_iff]
  unfold u32 inputBuf at *
  omega

omit [DecidableEq ι] in
/-- The byte at the read index is the next one committed. -/
theorem next_eq (hne : d.r ≠ d.w) : d.committed[d.taken.length]? = some d.next := by
  obtain ⟨rest, edit, hput, he, hw⟩ := h.shows
  cases rest with
  | nil => exact absurd ((h.empty_iff hput hw).mpr rfl) hne
  | cons c rest =>
    have hnext : d.next = c := by
      rw [next, h.r, u32_inputBuf]
      exact hw.head
    have hlen : d.taken.length = (d.taken.map (·.2)).length := (List.length_map _).symm
    rw [hput, hnext, hlen, List.getElem?_append_right (le_refl _), Nat.sub_self]
    rfl

omit [DecidableEq ι] in
theorem take (hne : d.r ≠ d.w) (i : ι) : (d.take i).Kept := by
  obtain ⟨rest, edit, hput, he, hw⟩ := h.shows
  cases rest with
  | nil => exact absurd ((h.empty_iff hput hw).mpr rfl) hne
  | cons c rest =>
    have hnext : d.next = c := by
      rw [next, h.r, u32_inputBuf]
      exact hw.head
    refine ⟨?_, h.w, rest, edit, ?_, he, ?_⟩
    · show u32 (d.r + 1) = u32 (d.taken ++ [(i, d.next)]).length
      rw [h.r, u32_add, List.length_append, List.length_singleton]
    · show d.committed = (d.taken ++ [(i, d.next)]).map (·.2) ++ rest
      rw [List.map_append, List.append_assoc, hput, hnext]
      rfl
    · show Window inputBuf d.buf (d.taken ++ [(i, d.next)]).length (rest ++ edit)
      rw [List.length_append]
      exact hw.tail

omit [DecidableEq ι] in
theorem putBack_eq : d.putBack = d := by
  have hr : u32 (u32 (d.r + 1) + 2 ^ 32 - 1) = d.r := by
    rw [h.r]
    unfold u32
    omega
  unfold Console.putBack
  rw [hr]

omit [DecidableEq ι] in
/-- Only the line being edited loses a byte. -/
theorem erase (hne : d.e ≠ d.w) : d.erase.Kept := by
  obtain ⟨rest, edit, hput, he, hw⟩ := h.shows
  have hedit : edit ≠ [] := by
    rintro rfl
    exact hne (by rw [he, h.w]; rfl)
  obtain ⟨line, c, rfl⟩ : ∃ line c, edit = line ++ [c] := ⟨_, _, (List.dropLast_append_getLast hedit).symm⟩
  obtain ⟨d', hd'⟩ : ∃ d', d.erase = d' := ⟨_, rfl⟩
  have hedited : d' = { d with e := u32 (d.committed.length + line.length) } := by
    rw [← hd', Console.erase, he, List.length_append, List.length_singleton, ← Nat.add_assoc, u32_pred (Nat.succ_pos _), Nat.succ_sub_one]
  rw [hd', hedited]
  refine ⟨h.r, h.w, rest, line, hput, rfl, ?_⟩
  rw [← List.append_assoc] at hw
  exact hw.front

omit [DecidableEq ι] in
theorem backspace : d.backspace.Kept := by
  unfold Console.backspace
  split_ifs with hne
  · exact h.erase hne
  · exact h

omit [DecidableEq ι] in
/-- A character that there is room for lands behind the line. -/
theorem input (hroom : ahead d.r d.e < inputBuf) (c : UInt8) : (d.input c).Kept := by
  obtain ⟨rest, edit, hput, he, hw⟩ := h.shows
  obtain ⟨-, -, hre, -⟩ := h.apart hput he hw
  have hlen : d.committed.length = d.taken.length + rest.length := by
    rw [hput, List.length_append, List.length_map]
  refine ⟨h.r, h.w, rest, edit ++ [c], hput, ?_, ?_⟩
  · show u32 (d.e + 1) = _
    rw [he, u32_add, List.length_append, Nat.add_assoc]
    rfl
  · have hslot : d.e % inputBuf = (d.taken.length + (rest ++ edit).length) % inputBuf := by
      rw [he, u32_inputBuf, hlen, List.length_append, Nat.add_assoc]
    show Window inputBuf (Function.update d.buf (d.e % inputBuf) c) d.taken.length (rest ++ (edit ++ [c]))
    rw [hslot, ← List.append_assoc]
    exact hw.push (by rw [List.length_append]; omega) c

omit [DecidableEq ι] in
/-- The line joins the committed bytes. -/
theorem commit : d.commit.Kept := by
  obtain ⟨rest, edit, hput, he, hw⟩ := h.shows
  obtain ⟨-, hwe, -, -⟩ := h.apart hput he hw
  have hlen : d.committed.length = d.taken.length + rest.length := by
    rw [hput, List.length_append, List.length_map]
  have hline : (List.range (ahead d.w d.e)).map (fun k => d.buf ((d.w + k) % inputBuf)) = edit := by
    rw [hwe]
    refine List.ext_getElem (by simp) fun k hk hk' => ?_
    rw [List.getElem_map, List.getElem_range, h.w, slot_inputBuf, hlen, Nat.add_assoc]
    have hlt : rest.length + k < (rest ++ edit).length := by
      rw [List.length_append]
      omega
    rw [hw.shown (rest.length + k) hlt, List.getElem_append_right (Nat.le_add_right ..)]
    simp only [Nat.add_sub_cancel_left]
  refine ⟨h.r, ?_, rest ++ edit, [], ?_, ?_, ?_⟩
  · show d.e = u32 (d.committed ++ _).length
    rw [hline, he, List.length_append]
  · show d.committed ++ _ = d.taken.map (·.2) ++ (rest ++ edit)
    rw [hline, hput, List.append_assoc]
  · show d.e = u32 ((d.committed ++ _).length + 0)
    rw [hline, he, List.length_append, Nat.add_zero]
  · rw [List.append_nil]
    exact hw

end Console.Kept

omit [DecidableEq ι] in
theorem Console.Kept.killLine (n : Nat) {d : Console ι} (h : d.Kept) : (Console.killLine n d).Kept := by
  induction n generalizing d with
  | zero => exact h
  | succ n ih =>
    unfold Console.killLine
    split_ifs with hne
    · exact ih (h.erase hne.1)
    · exact h

/-! ### What the processes own -/

/-- The bytes that a process has taken and the marks that its reads have come to; `fine`: those that
have returned are as they should be. -/
structure ConsoleOwn where
  bytes : List UInt8
  marks : List Nat
  fine : Prop

structure ConsoleKept (d : Console ι) (own : ι → ConsoleOwn) : Prop where
  kept : d.Kept
  bytes : ∀ i, d.takenBy i = (own i).bytes
  marks : ∀ i, ∀ k ∈ (own i).marks, d.committed[k]? = some ctrlD
  fine : ∀ i, (own i).fine

/-- Only the holder of the lock changes the console, and a reader may sleep while there is nothing to read. -/
def consoleWatch : Watch ι ConsoleChan (Console ι) (Console ι) ConsoleOwn where
  want _ d := d.r = d.w
  able _ _ := True
  J := ConsoleKept
  fix := id

namespace ConsoleKept
variable {d d' : Console ι} {own : ι → ConsoleOwn} (h : ConsoleKept d own)
include h

/-- Nothing is taken. -/
theorem aside (hkept : d'.Kept) (htaken : d'.taken = d.taken) (hcommitted : d.committed <+: d'.committed) :
    ConsoleKept d' own := by
  refine ⟨hkept, fun i => ?_, fun i k hk => ?_, h.fine⟩
  · unfold Console.takenBy
    rw [htaken]
    exact h.bytes i
  · obtain ⟨more, hmore⟩ := hcommitted
    have hmark := h.marks i k hk
    rw [← hmore, List.getElem?_append_left (List.getElem?_eq_some_iff.mp hmark).1]
    exact hmark

/-- A process comes to a mark. -/
theorem met {i : ι} {k : Nat} (hk : d.committed[k]? = some ctrlD) :
    ConsoleKept d (Function.update own i { own i with marks := (own i).marks ++ [k] }) := by
  refine ⟨h.kept, fun j => ?_, fun j k' hk' => ?_, fun j => ?_⟩
  all_goals
    by_cases hj : j = i
    · subst hj
      simp only [Function.update_self] at *
      first
        | exact h.bytes j
        | exact h.fine j
        | exact (List.mem_append.mp hk').elim (h.marks j k') fun hm => by rw [List.mem_singleton.mp hm]; exact hk
    · simp only [Function.update_of_ne hj] at *
      first
        | exact h.bytes j
        | exact h.fine j
        | exact h.marks j k' hk'

/-- A process takes the next byte. -/
theorem taking (hne : d.r ≠ d.w) (i : ι) :
    ConsoleKept (d.take i) (Function.update own i { own i with bytes := (own i).bytes ++ [d.next] }) := by
  have htaken : ∀ j, (d.take i).takenBy j = d.takenBy j ++ if j = i then [d.next] else [] := by
    intro j
    unfold Console.takenBy
    show ((d.taken ++ [(i, d.next)]).filter fun x => x.1 = j).map (·.2) = _
    rw [List.filter_append, List.map_append]
    by_cases hj : j = i
    · subst hj
      simp
    · simp [hj, Ne.symm hj]
  refine ⟨h.kept.take hne i, fun j => ?_, fun j k hk => ?_, fun j => ?_⟩
  · rw [htaken, h.bytes]
    by_cases hj : j = i
    · subst hj
      rw [if_pos rfl, Function.update_self]
    · rw [if_neg hj, List.append_nil, Function.update_of_ne hj]
  · by_cases hj : j = i
    · subst hj
      rw [Function.update_self] at hk
      exact h.marks j k hk
    · rw [Function.update_of_ne hj] at hk
      exact h.marks j k hk
  · by_cases hj : j = i
    · subst hj
      rw [Function.update_self]
      exact h.fine j
    · rw [Function.update_of_ne hj]
      exact h.fine j

end ConsoleKept

/-- The condition on a run: what a read takes is copied out, and a killed reader that gives up has
taken nothing. -/
def ConsoleLabel.careful : ConsoleLabel → Prop
  | .plain => True
  | .copy ok => ok = true
  | .giveUp took => took = 0

/-- A read as it should be: it has taken what it has stored, and a mark only by itself; it ends at the
first newline, at a mark or when it has what it wants. -/
structure ConsoleRead.Exact (x : ConsoleRead) : Prop where
  took : x.part.took = x.part.got ++ if x.part.mark ≠ none ∧ x.part.got = [] then [ctrlD] else []
  ret : x.ret = x.part.got.length ∨ x.ret = -1 ∧ x.part.took = []
  fits : x.part.got.length ≤ x.want.toNat
  line : ∀ c ∈ x.part.got.dropLast, c ≠ newline
  data : ∀ c ∈ x.part.got, c ≠ ctrlD
  ended : x.ret = -1 ∨ x.part.got.length = x.want.toNat ∨ x.part.got.getLast? = some newline ∨ x.part.mark ≠ none

/-- What a process owns whose reads have returned `l`, and which is in one that has come to `x`. -/
def readHold (l : List ConsoleRead) (x : Part) : ConsoleOwn :=
  ⟨l.flatMap (·.part.took) ++ x.took, l.filterMap (·.part.mark) ++ x.mark.toList, ∀ y ∈ l, y.Exact⟩

/-! ### The code -/

section Code
variable {C : ConsoleLabel → World ι ConsoleChan (Console ι) → Prop} {i : ι} {own : ConsoleOwn} {proc : List ι}
  {rounds : Nat} {N : Console ι → Prop}

/-- A section that takes and gives nothing to the readers. -/
theorem runs_aside {f : Console ι → Console ι} (hf : ∀ d : Console ι, d.Kept → N d → (f d).Kept)
    (hsame : ∀ d : Console ι, (f d).taken = d.taken ∧ (f d).committed = d.committed ∧ (f d).r = d.r ∧ (f d).w = d.w) :
    Runs consoleWatch C i (onConsole f) (.held own) N fun _ t' _ => t' = .held own ∧ True := by
  apply runs_update
  intro w T hI hT hN _
  have hkept : ConsoleKept w.data fun j => (T j).own := hI.own
  obtain ⟨htaken, hcommitted, hr, hw⟩ := hsame w.data
  refine ⟨?_, trivial, fun c j _ hwant => hwant.imp (fun he => ?_) id⟩
  · have hown : (T i).own = own := by rw [hT]; rfl
    rw [← hown, Function.update_eq_self i fun j => (T j).own]
    exact hkept.aside (hf _ hkept.kept hN) htaken (by rw [hcommitted])
  · show (f w.data).r = (f w.data).w
    rw [hr, hw]
    exact he

omit [DecidableEq ι] in
theorem erase_same (d : Console ι) : d.erase.taken = d.taken ∧ d.erase.committed = d.committed ∧ d.erase.r = d.r ∧
    d.erase.w = d.w := by
  rw [Console.erase]
  exact ⟨rfl, rfl, rfl, rfl⟩

omit [DecidableEq ι] in
theorem killLine_same (n : Nat) (d : Console ι) : (Console.killLine n d).taken = d.taken ∧
    (Console.killLine n d).committed = d.committed ∧ (Console.killLine n d).r = d.r ∧ (Console.killLine n d).w = d.w := by
  induction n generalizing d with
  | zero => exact ⟨rfl, rfl, rfl, rfl⟩
  | succ n ih =>
    unfold Console.killLine
    split_ifs with hne
    · obtain ⟨htaken, hcommitted, hr, hw⟩ := ih d.erase
      obtain ⟨htaken', hcommitted', hr', hw'⟩ := erase_same d
      exact ⟨htaken.trans htaken', hcommitted.trans hcommitted', hr.trans hr', hw.trans hw'⟩
    · exact ⟨rfl, rfl, rfl, rfl⟩

/-- The line is given to the readers, and they are woken. -/
theorem runs_storeChar (hproc : ∀ j, j ∈ proc) (c : UInt8) :
    Runs consoleWatch C i (storeChar proc c) (.held own) (fun d => ahead d.r d.e < inputBuf)
      fun _ t' _ => t' = .held own ∧ True := by
  refine runs_seq (fun _ => .held own) (F := fun _ _ => True)
    (runs_aside (fun d hd hroom => hd.input hroom c) fun d => ⟨rfl, rfl, rfl, rfl⟩) fun _ => ?_
  refine runs_seq (fun _ => .held own) (runs_fetch trivial) fun d => ?_
  split_ifs with hcommit
  · refine runs_seq (fun _ => .owing own fun _ _ => True) (F := fun _ _ => True) ?_ fun _ => ?_
    · apply runs_update
      intro w T hI hT _ _
      have hkept : ConsoleKept w.data fun j => (T j).own := hI.own
      have hown : (T i).own = own := by rw [hT]; rfl
      refine ⟨?_, trivial, fun _ _ _ _ => .inr trivial⟩
      rw [← hown, Function.update_eq_self i fun j => (T j).own]
      exact hkept.aside hkept.kept.commit rfl (List.prefix_append _ _)
    · refine runs_post (runs_wakeup_all hproc () _) fun _ t' _ ht => ⟨?_, trivial⟩
      rw [ht.1]
      congr 1
      funext c' j
      exact propext ⟨fun hno => hno.2 rfl, False.elim⟩
  · exact runs_ret fun _ _ => ⟨rfl, trivial⟩

theorem runs_consoleChar (hproc : ∀ j, j ∈ proc) (qemu : Bool) (c : UInt8) :
    Runs consoleWatch C i (consoleChar proc qemu c) (.held own) (fun _ => True) fun _ t' _ => t' = .held own ∧ True := by
  have hret : ∀ {N : Console ι → Prop}, Runs consoleWatch C i (.ret ()) (.held own) N fun _ t' _ => t' = .held own ∧ True :=
    runs_ret fun _ _ => ⟨rfl, trivial⟩
  unfold consoleChar
  by_cases hp : c = ctrlP
  · rw [if_pos hp]
    exact hret
  rw [if_neg hp]
  by_cases hu : c = ctrlU
  · rw [if_pos hu]
    exact runs_aside (fun d hd _ => hd.killLine _) fun d => killLine_same _ d
  rw [if_neg hu]
  by_cases hh : c = ctrlH ∨ c = delete
  · rw [if_pos hh]
    refine runs_aside (fun d hd _ => hd.backspace) fun d => ?_
    unfold Console.backspace
    split_ifs
    · exact erase_same d
    · exact ⟨rfl, rfl, rfl, rfl⟩
  rw [if_neg hh]
  refine runs_seq (fun _ => .held own) (runs_fetch trivial) fun d => ?_
  by_cases hroom : c ≠ 0 ∧ ahead d.r d.e < inputBuf
  · rw [if_pos hroom]
    have hstore : ∀ c, Runs consoleWatch C i (storeChar proc c) (.held own) (fun d' => True ∧ d' = d)
        fun _ t' _ => t' = .held own ∧ True := by
      intro c
      refine (runs_storeChar hproc c).pre fun w hd => ?_
      have hd : w.data = d := hd.2
      show ahead w.data.r w.data.e < inputBuf
      rw [hd]
      exact hroom.2
    by_cases hr : c = carriageReturn
    · rw [if_pos hr]
      by_cases hq : qemu = true
      · rw [if_pos hq]
        exact hstore newline
      · rw [if_neg hq]
        exact hret
    · rw [if_neg hr]
      exact hstore c
  · rw [if_neg hroom]
    exact hret

theorem runs_consoleintr (hproc : ∀ j, j ∈ proc) (qemu : Bool) (c : UInt8) :
    Runs consoleWatch C i (consoleintr i proc qemu c) (.out own) (fun _ => True) fun _ t' _ => t' = .out own ∧ True := by
  refine runs_seq (fun _ => .held own) (F := fun _ _ => True)
    (runs_post (runs_acquire fun _ => trivial) fun _ _ _ ht => ⟨ht, trivial⟩) fun _ => ?_
  refine runs_seq (fun _ => .held own) (runs_consoleChar hproc qemu c) fun _ => ?_
  exact runs_post runs_release_held fun _ _ _ ht => ⟨ht, trivial⟩

/-- A read in its loop: `n` bytes are left. -/
structure Part.Going (x : Part) (target n : Nat) : Prop where
  took : x.took = x.got
  mark : x.mark = none
  left : x.got.length + n = target
  line : ∀ c ∈ x.got, c ≠ newline
  data : ∀ c ∈ x.got, c ≠ ctrlD

/-- And at its end. -/
structure Part.Done (x : Part) (target : Nat) (locked : Bool) : Prop where
  took : x.took = x.got ++ if x.mark ≠ none ∧ x.got = [] then [ctrlD] else []
  none : locked = false → x.took = []
  fits : x.got.length ≤ target
  line : ∀ c ∈ x.got.dropLast, c ≠ newline
  data : ∀ c ∈ x.got, c ≠ ctrlD
  ended : locked = false ∨ x.got.length = target ∨ x.got.getLast? = some newline ∨ x.mark ≠ .none

namespace Part
variable {x : Part} {target n : Nat} {c : UInt8}

/-- All bytes have been read. -/
theorem Going.full (hx : x.Going target 0) : x.Done target true := by
  refine ⟨by rw [hx.took, hx.mark]; simp, fun h => (by cases h), Nat.le_of_eq hx.left, fun c hc => ?_, hx.data, .inr (.inl hx.left)⟩
  exact hx.line c (List.mem_of_mem_dropLast hc)

/-- A read that gives up with nothing taken. -/
theorem Going.gaveUp (hx : x.Going target n) (htook : x.took = []) : x.Done target false := by
  refine ⟨by rw [hx.took, hx.mark]; simp, fun _ => htook, ?_, fun c hc => hx.line c (List.mem_of_mem_dropLast hc), hx.data, .inl rfl⟩
  have := hx.left
  omega

/-- A mark behind other bytes. -/
theorem Going.left_mark (hx : x.Going target (n + 1)) (hlast : n + 1 < target) (k : Nat) :
    Part.Done { x with mark := some k } target true := by
  have hleft := hx.left
  have hgot : x.got ≠ [] := by
    intro hnil
    rw [hnil, List.length_nil] at hleft
    omega
  refine ⟨?_, fun h => (by cases h), ?_, fun c hc => hx.line c (List.mem_of_mem_dropLast hc), hx.data,
    .inr (.inr (.inr fun h => by cases h))⟩
  · rw [if_neg fun h => hgot h.2, List.append_nil]
    exact hx.took
  · show x.got.length ≤ target
    omega

/-- A mark that is all there is. -/
theorem Going.took_mark (hx : x.Going target (n + 1)) (hlast : ¬ n + 1 < target) (hc : c = ctrlD) (k : Nat) :
    Part.Done { x with took := x.took ++ [c], mark := some k } target true := by
  have hleft := hx.left
  have hgot : x.got = [] := by
    apply List.length_eq_zero_iff.mp
    omega
  refine ⟨?_, fun h => (by cases h), ?_, fun c hc => hx.line c (List.mem_of_mem_dropLast hc), hx.data,
    .inr (.inr (.inr fun h => by cases h))⟩
  · show x.took ++ [c] = x.got ++ _
    rw [if_pos ⟨fun h => (by cases h), hgot⟩, hx.took, hc]
  · show x.got.length ≤ target
    omega

theorem Going.mem_data (hx : x.Going target n) (hmark : c ≠ ctrlD) : ∀ b ∈ x.got ++ [c], b ≠ ctrlD := by
  intro b hb
  rcases List.mem_append.mp hb with hb | hb
  · exact hx.data b hb
  · rw [List.mem_singleton.mp hb]
    exact hmark

/-- The line has come to its end. -/
theorem Going.newline (hx : x.Going target (n + 1)) (hmark : c ≠ ctrlD) (hc : c = Farron.newline) :
    Part.Done { x with got := x.got ++ [c], took := x.took ++ [c] } target true := by
  have hleft := hx.left
  refine ⟨?_, fun h => (by cases h), ?_, fun b hb => ?_, hx.mem_data hmark, .inr (.inr (.inl ?_))⟩
  · show x.took ++ [c] = x.got ++ [c] ++ if x.mark ≠ .none ∧ _ then _ else _
    rw [if_neg fun h => h.1 hx.mark, List.append_nil, hx.took]
  · show (x.got ++ [c]).length ≤ target
    rw [List.length_append, List.length_singleton]
    omega
  · have hb : b ∈ (x.got ++ [c]).dropLast := hb
    rw [List.dropLast_concat] at hb
    exact hx.line b hb
  · show (x.got ++ [c]).getLast? = some Farron.newline
    rw [List.getLast?_concat, hc]

/-- A byte more has been read. -/
theorem Going.next (hx : x.Going target (n + 1)) (hmark : c ≠ ctrlD) (hc : c ≠ Farron.newline) :
    Part.Going { x with got := x.got ++ [c], took := x.took ++ [c] } target n := by
  have hleft := hx.left
  refine ⟨?_, hx.mark, ?_, fun b hb => ?_, hx.mem_data hmark⟩
  · show x.took ++ [c] = x.got ++ [c]
    rw [hx.took]
  · show (x.got ++ [c]).length + n = target
    rw [List.length_append, List.length_singleton]
    omega
  · rcases List.mem_append.mp hb with hb | hb
    · exact hx.line b hb
    · rw [List.mem_singleton.mp hb]
      exact hc

end Part

section Reading
variable (hC : ∀ l w, C l w → l.careful)
include hC

/-- The reader sleeps only while there is nothing to read. -/
theorem runs_waitInput (took n : Nat) :
    Runs consoleWatch C i (waitInput i took n) (.held own) (fun _ => True)
      fun b t' d => t' = (if b then .held own else .out own) ∧ ((b = false → took = 0) ∧ (b = true → d.r ≠ d.w)) := by
  induction n with
  | zero => exact Rules.Judge.stop trivial
  | succ n ih =>
    refine runs_seq (fun _ => .held own) (runs_fetch trivial) fun d => ?_
    by_cases hempty : d.r = d.w
    · rw [if_pos hempty]
      refine runs_seq (fun _ => .held own) (F := fun _ x => x = d)
        (runs_look fun w _ => runs_ret fun _ hN => ⟨rfl, hN.2⟩) fun k => ?_
      cases k with
      | true =>
        show Runs _ C i (.act _ _ _) _ _ _
        apply runs_look
        intro w hCw
        have htook : took = 0 := hC _ w hCw
        show Runs _ C i (release i >>= fun _ => .ret false) _ _ _
        refine runs_seq (fun _ => .out own) (F := fun _ _ => True) ?_ fun _ =>
          runs_ret fun _ _ => ⟨rfl, fun _ => htook, fun hb => by cases hb⟩
        exact runs_post runs_release_held fun _ _ _ ht => ⟨ht, trivial⟩
      | false =>
        show Runs _ C i (sleep i () >>= fun _ => waitInput i took n) _ _ _
        refine runs_seq (fun _ => .held own) (F := fun _ _ => True) ?_ fun _ => ih
        refine runs_post (runs_sleep () ?_ trivial) fun _ _ _ ht => ⟨ht, trivial⟩
        intro d' hN
        have hd : d' = d := hN
        show d'.r = d'.w
        rw [hd]
        exact hempty
    · rw [if_neg hempty]
      refine runs_ret fun d' hN => ⟨rfl, fun hb => (by cases hb), fun _ => ?_⟩
      have hd : d' = d := hN.2
      rw [hd]
      exact hempty

omit hC in
/-- A byte taken, and where a mark is met, that it is. -/
theorem runs_take {l : ConsoleLabel} {l' : List ConsoleRead} {x y : Part} {d : Console ι}
    (hy : y.took = x.took ++ [d.next]) (hmark : y.mark = x.mark ∨ x.mark = none ∧ y.mark = some d.taken.length ∧ d.next = ctrlD)
    {K : Console ι → Prop} (hK : ∀ w, C l w → ∀ d', K d') :
    Runs consoleWatch C i (update l (·.take i)) (.held (readHold l' x)) (fun d' => d.r ≠ d.w ∧ d' = d)
      fun _ t' d' => t' = .held (readHold l' y) ∧ K d' := by
  apply runs_update
  intro w T hI hT hN hCw
  have hd : w.data = d := hN.2
  have hne : w.data.r ≠ w.data.w := by
    rw [hd]
    exact hN.1
  have hkept : ConsoleKept w.data fun j => (T j).own := hI.own
  have hown : (T i).own = readHold l' x := by rw [hT]; rfl
  refine ⟨?_, hK w hCw _, fun c j _ hwant => hwant.elim (fun he => absurd he hne) False.elim⟩
  have htaking := hkept.taking hne i
  simp only [hown] at htaking
  rcases hmark with hmark | ⟨hnone, hsome, hnext⟩
  · have hsame : readHold l' y = { readHold l' x with bytes := (readHold l' x).bytes ++ [w.data.next] } := by
      unfold readHold
      rw [hy, hmark, hd, ← List.append_assoc]
    rw [hsame]
    exact htaking
  · have hat : (w.data.take i).committed[w.data.taken.length]? = some ctrlD := by
      rw [← hnext, ← hd]
      exact hkept.kept.next_eq hne
    have hmet := htaking.met (i := i) hat
    rw [Function.update_self, Function.update_idem] at hmet
    have hsame : readHold l' y = { readHold l' x with
        bytes := (readHold l' x).bytes ++ [w.data.next]
        marks := (readHold l' x).marks ++ [w.data.taken.length] } := by
      unfold readHold
      rw [hy, hsome, hnone, hd, ← List.append_assoc]
      simp
    rw [hsame]
    exact hmet

omit hC in
/-- A mark is met and left. -/
theorem runs_putBack {l' : List ConsoleRead} {x : Part} {d : Console ι} (hx : x.mark = none) (hnext : d.next = ctrlD) :
    Runs consoleWatch C i (onConsole Console.putBack) (.held (readHold l' x)) (fun d' => d.r ≠ d.w ∧ d' = d)
      fun _ t' _ => t' = .held (readHold l' { x with mark := some d.taken.length }) ∧ True := by
  apply runs_update
  intro w T hI hT hN _
  have hd : w.data = d := hN.2
  have hkept : ConsoleKept w.data fun j => (T j).own := hI.own
  have hback : w.data.putBack = w.data := hkept.kept.putBack_eq
  have hown : (T i).own = readHold l' x := by rw [hT]; rfl
  have hat : w.data.committed[d.taken.length]? = some ctrlD := by
    rw [← hnext, hd]
    have := hkept.kept
    rw [hd] at this
    exact this.next_eq hN.1
  rw [hback]
  refine ⟨?_, trivial, fun _ _ _ hwant => hwant⟩
  have hmet := hkept.met (i := i) hat
  simp only [hown] at hmet
  have hsame : readHold l' { x with mark := some d.taken.length } =
      { readHold l' x with marks := (readHold l' x).marks ++ [d.taken.length] } := by
    unfold readHold
    rw [hx]
    simp
  rw [hsame]
  exact hmet

theorem runs_consolereadLoop (ok : Nat → Bool) (target : Nat) (l : List ConsoleRead) (n : Nat) (x : Part)
    (hx : x.Going target n) :
    Runs consoleWatch C i (consolereadLoop i rounds ok target n x) (.held (readHold l x)) (fun _ => True)
      fun r t' _ => t' = (if r.1 then .held (readHold l r.2) else .out (readHold l r.2)) ∧ r.2.Done target r.1 := by
  induction n generalizing x with
  | zero => exact runs_ret fun _ _ => ⟨rfl, hx.full⟩
  | succ n ih =>
    refine runs_seq (fun b => if b then .held (readHold l x) else .out (readHold l x))
      (runs_waitInput hC x.took.length rounds) fun b => ?_
    cases b with
    | false => exact runs_ret fun d hN => ⟨rfl, hx.gaveUp (List.length_eq_zero_iff.mp (hN.1 rfl))⟩
    | true =>
      refine runs_seq (fun _ => .held (readHold l x)) (runs_fetch trivial) fun d => ?_
      have hnote : ∀ {α : Type} {p : ConsoleCode ι α} {Q : α → Duty ι ConsoleChan ConsoleOwn → Console ι → Prop},
          Runs consoleWatch C i p (.held (readHold l x)) (fun d' => d.r ≠ d.w ∧ d' = d) Q →
          Runs consoleWatch C i p (.held (readHold l x)) (fun d' => ((true = false → x.took.length = 0) ∧
            (true = true → d'.r ≠ d'.w)) ∧ d' = d) Q := by
        intro α p Q hp
        refine hp.pre fun w hN => ?_
        have hd : w.data = d := hN.2
        have hne : w.data.r ≠ w.data.w := hN.1.2 rfl
        rw [hd] at hne
        exact ⟨hne, hN.2⟩
      apply hnote
      by_cases hmark : d.next = ctrlD
      · simp only [if_pos hmark]
        by_cases hlast : n + 1 < target
        · rw [if_pos hlast]
          exact runs_seq (fun _ => .held (readHold l { x with mark := some d.taken.length })) (F := fun _ _ => True)
            (runs_putBack hx.mark hmark) fun _ => runs_ret fun _ _ => ⟨rfl, hx.left_mark hlast _⟩
        · rw [if_neg hlast]
          exact runs_seq (fun _ => .held (readHold l { x with took := x.took ++ [d.next], mark := some d.taken.length }))
            (F := fun _ _ => True) (runs_take rfl (.inr ⟨hx.mark, rfl, hmark⟩) fun _ _ _ => trivial) fun _ =>
            runs_ret fun _ _ => ⟨rfl, hx.took_mark hlast hmark _⟩
      · simp only [if_neg hmark]
        refine runs_seq (fun _ => .held (readHold l { x with took := x.took ++ [d.next] }))
          (F := fun _ _ => ok x.got.length = true) ?_
          fun _ => ?_
        · exact runs_take (x := x) (y := { x with took := x.took ++ [d.next] }) (d := d) rfl (.inl rfl)
            fun w hCw _ => hC (.copy (ok x.got.length)) w hCw
        by_cases hok : ok x.got.length = true
        · simp only [if_pos hok]
          by_cases hnl : d.next = newline
          · rw [if_pos hnl]
            exact runs_ret fun _ _ => ⟨rfl, hx.newline hmark hnl⟩
          · rw [if_neg hnl]
            exact (ih _ (hx.next hmark hnl)).pre fun _ _ => trivial
        · simp only [if_neg hok]
          exact runs_ret fun _ h => absurd h hok

theorem runs_consoleread (ok : Nat → Bool) (want : Int) (l : List ConsoleRead) :
    Runs consoleWatch C i (consoleread i rounds ok want) (.out (readHold l ⟨[], [], none⟩)) (fun _ => True)
      fun x t' _ => t' = .out (readHold l x.part) ∧ x.Exact := by
  refine runs_seq (fun _ => .held (readHold l ⟨[], [], none⟩)) (F := fun _ _ => True)
    (runs_post (runs_acquire fun _ => trivial) fun _ _ _ ht => ⟨ht, trivial⟩) fun _ => ?_
  have hstart : Part.Going ⟨[], [], none⟩ want.toNat want.toNat :=
    ⟨rfl, rfl, Nat.zero_add _, fun c hc => (by cases hc), fun c hc => (by cases hc)⟩
  refine runs_seq (fun r => if r.1 then .held (readHold l r.2) else .out (readHold l r.2))
    (runs_consolereadLoop hC ok want.toNat l want.toNat _ hstart) fun r => ?_
  obtain ⟨b, x⟩ := r
  cases b with
  | true =>
    refine Rules.Judge.pre (Rules.Judge.known (a := x.Done want.toNat true) (P := fun _ => True) (fun _ _ => trivial)
      fun hx => ?_) fun _ hx => ⟨hx, trivial⟩
    show Runs consoleWatch C i (release i >>= fun _ => .ret (⟨want, x.got.length, x⟩ : ConsoleRead)) (.held (readHold l x))
      (fun _ => True) fun y t' _ => t' = .out (readHold l y.part) ∧ y.Exact
    refine runs_seq (fun _ => .out (readHold l x)) (F := fun _ _ => True) ?_ fun _ => ?_
    · exact runs_post runs_release_held fun _ _ _ ht => ⟨ht, trivial⟩
    refine runs_ret fun _ _ => ⟨rfl, hx.took, .inl rfl, hx.fits, hx.line, hx.data, ?_⟩
    exact .inr (hx.ended.resolve_left fun h => by cases h)
  | false =>
    refine runs_ret fun _ hx => ⟨rfl, hx.took, .inr ⟨rfl, hx.none rfl⟩, hx.fits, hx.line, hx.data, .inl rfl⟩

end Reading
end Code
end Farron
