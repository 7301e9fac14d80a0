import Farron.Fat.Contents

/-! Files as byte arrays.

What a regular file is for: an array of bytes that `ewrite` overwrites and extends,
`eread` reads from and `etrunc` empties, independently of every other file
(`Call.spec`). `Represents` says when a state holds such arrays: each entry has a
well-formed chain of its own, its cursor is on it, and the array is the chain's
first `file_size` bytes. `FilesRefine C` is the refinement for all sequences of
calls whose sections meet `C` along the way. -/
namespace Farron
open Resumption
variable {fat : Fat}

/-- The array after `data` has been written at `off`, which is not beyond its end. -/
def putBytes (off : Nat) (data l : List Byte) : List Byte :=
  l.take off ++ data ++ l.drop (off + data.length)

inductive Call
  | ewrite (e : Ptr) (src : Nat → Byte) (off n : Nat)
  | eread (e : Ptr) (off n : Nat)
  | etrunc (e : Ptr)

namespace Call

def entry : Call → Ptr
  | .ewrite e _ _ _ | .eread e _ _ | .etrunc e => e

/-- The arguments are 32-bit words. -/
def Words : Call → Prop
  | .ewrite _ _ off n | .eread _ off n => off < 2 ^ 32 ∧ n < 2 ^ 32
  | .etrunc _ => True

instance : DecidablePred Words
  | .ewrite .. | .eread .. => inferInstanceAs (Decidable (_ ∧ _))
  | .etrunc _ => isTrue trivial

/-- The call with a buffer all of whose copies succeed: its `int`, and the bytes read. -/
def exec (fat : Fat) : Call → Fs (Int × List Byte)
  | .ewrite e src off n => do
    let r ← Farron.ewrite fat e (.kernel src) off n
    return (r, [])
  | .eread e off n => Farron.eread fat e (.kernel fun _ => 0) off n
  | .etrunc e => do
    Farron.etrunc fat e
    return (0, [])

/-- What the call is for, on arrays: `ro` are the read-only files. -/
def spec (ro : Ptr → Prop) [DecidablePred ro] (files : Ptr → List Byte) :
    Call → (Int × List Byte) × (Ptr → List Byte)
  | .ewrite e src off n =>
    if off ≤ (files e).length ∧ off + n < 2 ^ 32 ∧ ¬ ro e then
      ((int32 n, []), Function.update files e (putBytes off ((List.range n).map src) (files e)))
    else ((-1, []), files)
  | .eread e off n =>
    if off ≤ (files e).length ∧ off + n < 2 ^ 32 then
      ((int32 (min n ((files e).length - off)), ((files e).drop off).take n), files)
    else ((0, []), files)
  | .etrunc e => ((0, []), Function.update files e [])

end Call

def execAll (fat : Fat) : List Call → Fs (List (Int × List Byte))
  | [] => return []
  | c :: cs => do
    let r ← c.exec fat
    let rs ← execAll fat cs
    return r :: rs

def specAll (ro : Ptr → Prop) [DecidablePred ro] (files : Ptr → List Byte) :
    List Call → List (Int × List Byte) × (Ptr → List Byte)
  | [] => ([], files)
  | c :: cs =>
    let r := c.spec ro files
    let rs := specAll ro r.2 cs
    (r.1 :: rs.1, rs.2)

/-- A read-only entry. -/
def ReadOnly (s : State) (e : Ptr) : Prop := (s.dirents e).attr &&& attrReadOnly ≠ 0

instance (s : State) : DecidablePred (ReadOnly s) := fun _ => inferInstanceAs (Decidable (_ ≠ _))

/-- The entries of `E` hold the arrays `files`, in chains of their own. -/
structure Represents (fat : Fat) (E : Ptr → Prop) (s : State) (chains : Ptr → List Nat)
    (files : Ptr → List Byte) : Prop where
  chain : ∀ e, E e → Chain fat s.disk (chains e)
  holds : ∀ e, E e → Holds (s.dirents e) (chains e)
  disjoint : ∀ e e', E e → E e' → e ≠ e' → ∀ c ∈ chains e, c ∉ chains e'
  regular : ∀ e, E e → (s.dirents e).attr &&& attrDirectory = 0
  size : ∀ e, E e → (s.dirents e).fileSize = (files e).length
  word : ∀ e, E e → (files e).length < 2 ^ 32
  fits : ∀ e, E e → (files e).length ≤ (chains e).length * fat.bytsPerClus
  byte : ∀ e o, E e → o < (files e).length → (files e)[o]? = some (chainByte fat s.disk (chains e) o)

/-- Clusters in use outside the chains of `E` are as they were. -/
def Untouched (fat : Fat) (E : Ptr → Prop) (chains : Ptr → List Nat) (disk disk' : Disk) : Prop :=
  ∀ c, fat.InRange c → fatEntry fat disk c ≠ 0 → (∀ e, E e → c ∉ chains e) →
    fatEntry fat disk' c = fatEntry fat disk c ∧
      ∀ o, o < fat.bytsPerClus → clusByte fat disk' c o = clusByte fat disk c o

/-- Every sequence of calls whose sections meet `C` answers as the arrays do, ends in a
state that represents their final values, and leaves everything else on the volume
alone. -/
def FilesRefine (C : Fat → Label → State → Prop) : Prop :=
  ∀ (fat : Fat) (E : Ptr → Prop) (s : State) (chains : Ptr → List Nat) (files : Ptr → List Byte)
    (calls : List Call), fat.Wf → Represents fat E s chains files →
    (∀ c ∈ calls, E c.entry ∧ c.Words) → (execAll fat calls).Steps (C fat) s →
    ∃ s' chains', (execAll fat calls).run s = .done (specAll (ReadOnly s) files calls).1 s' ∧
      Represents fat E s' chains' (specAll (ReadOnly s) files calls).2 ∧
      Untouched fat E chains s.disk s'.disk

/-! ### Arrays -/

section PutBytes
variable {off o : Nat} {data l : List Byte}

theorem length_putBytes (h : off ≤ l.length) :
    (putBytes off data l).length = max l.length (off + data.length) := by
  simp only [putBytes, List.length_append, List.length_take, List.length_drop]
  omega

theorem getElem?_putBytes (h : off ≤ l.length) :
    (putBytes off data l)[o]? =
      if off ≤ o ∧ o < off + data.length then data[o - off]? else l[o]? := by
  have htake : (l.take off).length = off := by simp [h]
  unfold putBytes
  by_cases h1 : o < off
  · rw [if_neg (by omega), List.append_assoc, List.getElem?_append_left (by omega),
      List.getElem?_take_of_lt h1]
  · by_cases h2 : o < off + data.length
    · rw [if_pos (by omega), List.append_assoc, List.getElem?_append_right (by omega), htake,
        List.getElem?_append_left (by omega)]
    · rw [if_neg (by omega), List.getElem?_append_right (by simp [htake]; omega), List.getElem?_drop]
      congr 1
      simp only [List.length_append, htake]
      omega

end PutBytes

/-- What calls on the entries of `E` leave alone: attributes, and clusters in use
elsewhere. -/
structure Kept (fat : Fat) (E : Ptr → Prop) (s : State) (chains : Ptr → List Nat) (s' : State)
    (chains' : Ptr → List Nat) : Prop where
  attr : ∀ e, (s'.dirents e).attr = (s.dirents e).attr
  taken : ∀ e, E e → ∀ c ∈ chains' e, (∀ e', E e' → c ∉ chains e') → fatEntry fat s.disk c = 0
  untouched : Untouched fat E chains s.disk s'.disk

theorem Kept.refl (fat : Fat) (E : Ptr → Prop) (s : State) (chains : Ptr → List Nat) :
    Kept fat E s chains s chains :=
  ⟨fun _ => rfl, fun e he _ hc hn => absurd hc (hn e he), fun _ _ _ _ => ⟨rfl, fun _ _ => rfl⟩⟩

theorem Kept.trans {E : Ptr → Prop} {s s' s'' : State} {chains chains' chains'' : Ptr → List Nat}
    (h : Kept fat E s chains s' chains') (h' : Kept fat E s' chains' s'' chains'')
    (hin : ∀ e, E e → ∀ c ∈ chains'' e, fat.InRange c) : Kept fat E s chains s'' chains'' where
  attr e := (h'.attr e).trans (h.attr e)
  taken e he c hc hn := by
    by_contra hz
    have hsame := (h.untouched c (hin e he c hc) hz hn).1
    have hn' : ∀ e', E e' → c ∉ chains' e' := fun e' he' hm => hz (h.taken e' he' c hm hn)
    have hfree := h'.taken e he c hc hn'
    exact hz (hsame.symm.trans hfree)
  untouched c hc hz hn := by
    obtain ⟨h1, h2⟩ := h.untouched c hc hz hn
    have hn' : ∀ e', E e' → c ∉ chains' e' := fun e' he' hm => hz (h.taken e' he' c hm hn)
    obtain ⟨h3, h4⟩ := h'.untouched c hc (by rw [h1]; exact hz) hn'
    exact ⟨h3.trans h1, fun o ho => (h4 o ho).trans (h2 o ho)⟩

/-! ### One call -/

section Calls
variable (w : fat.Wf) {E : Ptr → Prop} {s : State} {chains : Ptr → List Nat} {files : Ptr → List Byte}
include w

/-- A call on `e` that gives it the chain `l'` and the array `b'`, taking clusters from
its own chain and free ones only. -/
theorem Represents.replace (h : Represents fat E s chains files) {e : Ptr} (he : E e) (s' : State)
    (l' : List Nat) (b' : List Byte)
    (hothers : ∀ e', e' ≠ e → s'.dirents e' = s.dirents e')
    (hattr : (s'.dirents e).attr = (s.dirents e).attr)
    (hchain : Chain fat s'.disk l') (hholds : Holds (s'.dirents e) l')
    (hsize : (s'.dirents e).fileSize = b'.length) (hword : b'.length < 2 ^ 32)
    (hfits : b'.length ≤ l'.length * fat.bytsPerClus)
    (hbyte : ∀ o, o < b'.length → b'[o]? = some (chainByte fat s'.disk l' o))
    (hfrom : ∀ c ∈ l', c ∉ chains e → fatEntry fat s.disk c = 0)
    (hsame : ∀ c, fat.InRange c → c ∉ l' → c ∉ chains e →
      fatEntry fat s'.disk c = fatEntry fat s.disk c ∧
        ∀ o, o < fat.bytsPerClus → clusByte fat s'.disk c o = clusByte fat s.disk c o) :
    Represents fat E s' (Function.update chains e l') (Function.update files e b') ∧
      Kept fat E s chains s' (Function.update chains e l') := by
  have hkeep : ∀ e', E e' → e' ≠ e → ∀ c ∈ chains e', c ∉ l' ∧ c ∉ chains e := by
    intro e' he' hne c hc
    have hnot := h.disjoint e' e he' he hne c hc
    exact ⟨fun hm => (h.chain e' he').entry_ne_zero hc (hfrom c hm hnot), hnot⟩
  refine ⟨⟨?_, ?_, ?_, ?_, ?_, ?_, ?_, ?_⟩, ?_, ?_, ?_⟩
  · intro e' he'
    by_cases hne : e' = e
    · subst hne
      rw [Function.update_self]
      exact hchain
    · rw [Function.update_of_ne hne]
      refine (h.chain e' he').congr fun c hc => ?_
      obtain ⟨h1, h2⟩ := hkeep e' he' hne c hc
      exact (hsame c ((h.chain e' he').inRange c hc) h1 h2).1
  · intro e' he'
    by_cases hne : e' = e
    · subst hne
      rw [Function.update_self]
      exact hholds
    · rw [Function.update_of_ne hne, hothers e' hne]
      exact h.holds e' he'
  · intro e₁ e₂ he₁ he₂ hne c hc
    by_cases h1 : e₁ = e
    · subst h1
      rw [Function.update_self] at hc
      rw [Function.update_of_ne (Ne.symm hne)]
      exact fun hm => (hkeep e₂ he₂ (Ne.symm hne) c hm).1 hc
    · rw [Function.update_of_ne h1] at hc
      by_cases h2 : e₂ = e
      · subst h2
        rw [Function.update_self]
        exact (hkeep e₁ he₁ h1 c hc).1
      · rw [Function.update_of_ne h2]
        exact h.disjoint e₁ e₂ he₁ he₂ hne c hc
  · intro e' he'
    by_cases hne : e' = e
    · subst hne
      rw [hattr]
      exact h.regular e' he'
    · rw [hothers e' hne]
      exact h.regular e' he'
  · intro e' he'
    by_cases hne : e' = e
    · subst hne
      rw [Function.update_self]
      exact hsize
    · rw [Function.update_of_ne hne, hothers e' hne]
      exact h.size e' he'
  · intro e' he'
    by_cases hne : e' = e
    · subst hne
      rw [Function.update_self]
      exact hword
    · rw [Function.update_of_ne hne]
      exact h.word e' he'
  · intro e' he'
    by_cases hne : e' = e
    · subst hne
      rw [Function.update_self, Function.update_self]
      exact hfits
    · rw [Function.update_of_ne hne, Function.update_of_ne hne]
      exact h.fits e' he'
  · intro e' o he' ho
    by_cases hne : e' = e
    · subst hne
      rw [Function.update_self] at ho ⊢
      rw [Function.update_self]
      exact hbyte o ho
    · rw [Function.update_of_ne hne] at ho ⊢
      rw [Function.update_of_ne hne, h.byte e' o he' ho]
      obtain ⟨c, hc⟩ := exists_cluster w (lt_of_lt_of_le ho (h.fits e' he'))
      obtain ⟨h1, h2⟩ := hkeep e' he' hne c (List.mem_of_getElem? hc)
      rw [chainByte_eq hc, chainByte_eq hc, (hsame c ((h.chain e' he').get_inRange hc) h1 h2).2 _
        (Nat.mod_lt _ w.bytsPerClus_pos)]
  · intro e'
    by_cases hne : e' = e
    · rw [hne, hattr]
    · rw [hothers e' hne]
  · intro e' he' c hc hn
    by_cases hne : e' = e
    · subst hne
      rw [Function.update_self] at hc
      exact hfrom c hc (hn e' he')
    · rw [Function.update_of_ne hne] at hc
      exact absurd hc (hn e' he')
  · intro c hc hz hn
    exact hsame c hc (fun hm => hz (hfrom c hm (hn e he))) (hn e he)

/-- An entry without a cluster gets one; any other is left alone. -/
theorem run_ewriteFirst {e : Ptr} {l : List Nat} (s : State) (hchain : Chain fat s.disk l)
    (hholds : Holds (s.dirents e) l) (hsteps : (ewriteFirst fat e).Steps (Sound fat) s) (off : Nat)
    (data : Nat → Byte) :
    ∃ l' s', (ewriteFirst fat e).run s = .done () s' ∧ Spliced fat l l' off 0 data s.disk s'.disk ∧
      l' ≠ [] ∧ Holds (s'.dirents e) l' ∧ (∀ e', e' ≠ e → s'.dirents e' = s.dirents e') ∧
      (s'.dirents e).attr = (s.dirents e).attr ∧ (s'.dirents e).fileSize = (s.dirents e).fileSize := by
  simp only [ewriteFirst] at hsteps ⊢
  rw [Prog.run_bind_done (run_dirent ..)]
  replace hsteps := Prog.steps_bind_done hsteps (run_dirent ..)
  by_cases hz : (s.dirents e).firstClus = 0
  · have hl : l = [] := by
      cases l with
      | nil => rfl
      | cons c rest =>
        have h1 := (hchain.inRange c List.mem_cons_self).1
        have h2 : (s.dirents e).firstClus = c := hholds.first
        omega
    subst hl
    rw [if_pos hz] at hsteps ⊢
    obtain ⟨c, disk', hrun, ha⟩ := run_allocClus w s
      ((Prog.steps_bind_left hsteps).mono fun _ _ h => h.1)
    rw [Prog.run_bind_done hrun]
    refine ⟨[c], _, rfl, ha.grown.spliced w off data, by simp, ?_, ?_, ?_, ?_⟩
    · rw [State.setDirent_same]
      exact ⟨rfl, fun _ => rfl⟩
    · intro e' hne
      rw [State.setDirent_ne _ _ _ _ hne]
    · rw [State.setDirent_same]
    · rw [State.setDirent_same]
  · rw [if_neg hz]
    refine ⟨l, s, rfl, .refl hchain off data, ?_, hholds, fun _ _ => rfl, rfl, rfl⟩
    rintro rfl
    exact hz hholds.first

omit w in
theorem run_ewriteSize (e : Ptr) (off n : Nat) (s : State) :
    ∃ s', (ewriteSize e off n).run s = .done () s' ∧ s'.disk = s.disk ∧
      (∀ e', e' ≠ e → s'.dirents e' = s.dirents e') ∧
      (s'.dirents e).attr = (s.dirents e).attr ∧
      (∀ l, Holds (s.dirents e) l → Holds (s'.dirents e) l) ∧
      (s'.dirents e).fileSize =
        if 0 < n then max (s.dirents e).fileSize off else (s.dirents e).fileSize := by
  by_cases hn : n > 0
  · simp only [ewriteSize, if_pos hn]
    rw [Prog.run_bind_done (run_dirent ..)]
    by_cases ho : off > (s.dirents e).fileSize
    · rw [if_pos ho]
      refine ⟨_, rfl, rfl, fun e' hne => State.setDirent_ne _ _ _ _ hne, ?_, fun l hl => ?_, ?_⟩
      · rw [State.setDirent_same]
      · rw [State.setDirent_same]
        exact ⟨hl.first, hl.cursor⟩
      · rw [State.setDirent_same]
        show off = _
        exact (max_eq_right (by omega)).symm
    · rw [if_neg ho]
      exact ⟨s, rfl, rfl, fun _ _ => rfl, rfl, fun _ h => h, (max_eq_left (by omega)).symm⟩
  · simp only [ewriteSize, if_neg hn]
    exact ⟨s, rfl, rfl, fun _ _ => rfl, rfl, fun _ h => h, rfl⟩

omit w in
/-- The check that `ewrite` and `eread` make before they move anything. -/
theorem range_check {off n : Nat} (hoff : off < 2 ^ 32) (hn : n < 2 ^ 32) :
    u32 (off + n) < off ↔ 2 ^ 32 ≤ off + n := by
  unfold u32
  omega

/-- A call that only moves the cursor of `e`. -/
theorem Represents.setCursor (h : Represents fat E s chains files) {e : Ptr} (he : E e) (c k : Nat)
    (hcur : chains e ≠ [] → (chains e)[k]? = some c) :
    Represents fat E (s.setCursor e c k) chains files ∧
      Kept fat E s chains (s.setCursor e c k) chains := by
  have := h.replace w he (s.setCursor e c k) (chains e) (files e)
    (fun e' hne => State.setCursor_ne s c k hne) (by rw [State.setCursor_same]) (h.chain e he)
    (by rw [State.setCursor_same]; exact ⟨(h.holds e he).first, hcur⟩)
    (by rw [State.setCursor_same]; exact h.size e he) (h.word e he) (h.fits e he)
    (fun o ho => h.byte e o he ho) (fun c hc hn => absurd hc hn) (fun _ _ _ _ => ⟨rfl, fun _ _ => rfl⟩)
  rw [Function.update_eq_self, Function.update_eq_self] at this
  exact this

theorem run_eread (h : Represents fat E s chains files) {e : Ptr} (he : E e) {off n : Nat}
    (hoff : off < 2 ^ 32) (hn : n < 2 ^ 32) :
    ∃ s' chains', (Call.exec fat (.eread e off n)).run s =
        .done (Call.spec (ReadOnly s) files (.eread e off n)).1 s' ∧
      Represents fat E s' chains' (Call.spec (ReadOnly s) files (.eread e off n)).2 ∧
      Kept fat E s chains s' chains' := by
  have hsize := h.size e he
  have hword := h.word e he
  simp only [Call.exec, Call.spec, Farron.eread]
  rw [Prog.run_bind_done (run_dirent ..)]
  by_cases hok : off ≤ (files e).length ∧ off + n < 2 ^ 32
  · have hgo : ¬ (off > (s.dirents e).fileSize ∨ u32 (off + n) < off
        ∨ (s.dirents e).attr &&& attrDirectory ≠ 0) := by
      rw [range_check hoff hn, h.regular e he]
      simp only [ne_eq, not_true_eq_false, or_false, not_or]
      omega
    obtain ⟨m, hm⟩ : ∃ m, m = min n ((files e).length - off) := ⟨_, rfl⟩
    have hclamp : (if u32 (off + n) > (s.dirents e).fileSize then (s.dirents e).fileSize - off else n) = m := by
      rw [u32_of_lt hok.2]
      by_cases hend : off + n > (s.dirents e).fileSize
      · rw [if_pos hend]
        omega
      · rw [if_neg hend]
        omega
    have hfits := h.fits e he
    rw [if_neg hgo, if_pos hok, hclamp]
    obtain ⟨c, k, hrun, hcur⟩ := run_ereadLoop w (Buf.kernel fun _ => 0) (fun _ _ => rfl) m 0 off
      (Nat.zero_le _) (Nat.le_refl _) (by omega) s (h.chain e he) (h.holds e he) (by omega)
    obtain ⟨hrep, hkept⟩ := h.setCursor w he c k hcur
    refine ⟨s.setCursor e c k, chains, ?_, hrep, hkept⟩
    rw [Prog.run_bind_done hrun]
    simp only [Prog.pure_eq, Prog.run_ret, Nat.sub_zero, ← hm]
    have hbytes : (List.range m).map (fun i => chainByte fat s.disk (chains e) (off + i)) =
        ((files e).drop off).take n := by
      apply List.ext_getElem?
      intro i
      by_cases hi : i < m
      · rw [List.getElem?_map, List.getElem?_range hi, List.getElem?_take_of_lt (by omega),
          List.getElem?_drop, h.byte e (off + i) he (by omega)]
        rfl
      · rw [List.getElem?_eq_none (by simp; omega), List.getElem?_eq_none (by simp; omega)]
    rw [hbytes]
  · have hno : off > (s.dirents e).fileSize ∨ u32 (off + n) < off
        ∨ (s.dirents e).attr &&& attrDirectory ≠ 0 := by
      rw [range_check hoff hn]
      omega
    rw [if_pos hno, if_neg hok]
    exact ⟨s, chains, rfl, h, .refl ..⟩

/-- A write that has gone through: the chain spliced, the size at its new value. -/
theorem Represents.spliced (h : Represents fat E s chains files) {e : Ptr} (he : E e) (s' : State)
    {l' : List Nat} {off n : Nat} {src : Nat → Byte} (hoff : off ≤ (files e).length)
    (hend : off + n < 2 ^ 32) (hs : Spliced fat (chains e) l' off n src s.disk s'.disk)
    (hothers : ∀ e', e' ≠ e → s'.dirents e' = s.dirents e')
    (hattr : (s'.dirents e).attr = (s.dirents e).attr) (hholds : Holds (s'.dirents e) l')
    (hsize : (s'.dirents e).fileSize = max (files e).length (off + n)) :
    Represents fat E s' (Function.update chains e l')
        (Function.update files e (putBytes off ((List.range n).map src) (files e))) ∧
      Kept fat E s chains s' (Function.update chains e l') := by
  have hlen : (putBytes off ((List.range n).map src) (files e)).length =
      max (files e).length (off + n) := by
    rw [length_putBytes hoff, List.length_map, List.length_range]
  have hword := h.word e he
  have hfits := h.fits e he
  have hmore : (chains e).length * fat.bytsPerClus ≤ l'.length * fat.bytsPerClus := by
    obtain ⟨new, rfl, _⟩ := hs.extends'
    refine Nat.mul_le_mul_right _ ?_
    rw [List.length_append]
    omega
  have hbytes : max (files e).length (off + n) ≤ l'.length * fat.bytsPerClus := by
    by_cases hn : n = 0
    · omega
    · have := hs.fits hn
      omega
  apply h.replace w he s' l' _ hothers hattr hs.chain hholds
  · rw [hsize, hlen]
  · rw [hlen]
    omega
  · rw [hlen]
    exact hbytes
  · intro o ho
    rw [hlen] at ho
    rw [getElem?_putBytes hoff, List.length_map, List.length_range, hs.byte o (by omega)]
    by_cases hin : off ≤ o ∧ o < off + n
    · rw [if_pos hin, if_pos hin, List.getElem?_map, List.getElem?_range (by omega)]
      rfl
    · rw [if_neg hin, if_neg hin, if_pos (by omega), h.byte e o he (by omega)]
  · intro c hc hn
    obtain ⟨new, rfl, hnew⟩ := hs.extends'
    rcases List.mem_append.mp hc with hm | hm
    · exact absurd hm hn
    · exact (hnew c hm).2
  · intro c hc hn _
    exact ⟨hs.entry c hc.2 hn, fun o ho => hs.other c o hc ho hn⟩

theorem run_ewrite (h : Represents fat E s chains files) {e : Ptr} (he : E e) {src : Nat → Byte}
    {off n : Nat} (hoff : off < 2 ^ 32) (hn : n < 2 ^ 32)
    (hsteps : (Call.exec fat (.ewrite e src off n)).Steps (Sound fat) s) :
    ∃ s' chains', (Call.exec fat (.ewrite e src off n)).run s =
        .done (Call.spec (ReadOnly s) files (.ewrite e src off n)).1 s' ∧
      Represents fat E s' chains' (Call.spec (ReadOnly s) files (.ewrite e src off n)).2 ∧
      Kept fat E s chains s' chains' := by
  have hsize := h.size e he
  have hword := h.word e he
  simp only [Call.exec, Call.spec, Farron.ewrite] at hsteps ⊢
  by_cases hok : off ≤ (files e).length ∧ off + n < 2 ^ 32 ∧ ¬ ReadOnly s e
  · have hgo : ¬ (off > (s.dirents e).fileSize ∨ u32 (off + n) < off ∨ off + n > 0xffffffff
        ∨ (s.dirents e).attr &&& attrReadOnly ≠ 0) := by
      rw [range_check hoff hn]
      rintro (h1 | h1 | h1 | h1)
      · omega
      · omega
      · omega
      · exact hok.2.2 h1
    replace hsteps := Prog.steps_bind_left hsteps
    replace hsteps := Prog.steps_bind_done hsteps (run_dirent ..)
    rw [if_neg hgo] at hsteps
    -- the first cluster, then the loop, then the size
    obtain ⟨l₁, s₁, hfirst, hs₁, hne, hholds₁, hothers₁, hattr₁, hsize₁⟩ :=
      run_ewriteFirst w s (h.chain e he) (h.holds e he) (Prog.steps_bind_left hsteps) off src
    replace hsteps := Prog.steps_bind_done hsteps hfirst
    obtain ⟨l₂, disk₂, c, k, hloop, hs₂, hc⟩ := run_ewriteLoop w (Buf.kernel src) (fun _ _ => rfl) n 0
      off (Nat.zero_le _) (Nat.le_refl _) (by omega) s₁ hne hs₁.chain hholds₁
      (Prog.steps_bind_left hsteps)
    rw [Nat.sub_zero] at hs₂
    have hs : Spliced fat (chains e) l₂ off n src s.disk disk₂ := by
      have := hs₁.trans hs₂
      rw [Nat.zero_add] at this
      exact this
    have hholds₂ : Holds ((({ s₁ with disk := disk₂ } : State).setCursor e c k).dirents e) l₂ := by
      rw [State.setCursor_same]
      refine ⟨?_, fun _ => hc⟩
      obtain ⟨new, rfl, _⟩ := hs₂.extends'
      obtain ⟨c₀, rest, rfl⟩ := List.exists_cons_of_ne_nil hne
      exact hholds₁.first
    obtain ⟨s₃, hrun₃, hdisk₃, hothers₃, hattr₃, hholds₃, hsize₃⟩ := run_ewriteSize e (u32 (off + n)) n
      (({ s₁ with disk := disk₂ } : State).setCursor e c k)
    rw [State.setCursor_same] at hattr₃ hsize₃
    rw [u32_of_lt (by omega)] at hsize₃ hrun₃
    have hsize' : (s₃.dirents e).fileSize = max (files e).length (off + n) := by
      rw [hsize₃]
      show (if 0 < n then max (s₁.dirents e).fileSize (off + n) else (s₁.dirents e).fileSize) = _
      rw [hsize₁, hsize]
      by_cases hn0 : 0 < n
      · rw [if_pos hn0]
      · rw [if_neg hn0]
        omega
    obtain ⟨hrep, hkept⟩ := h.spliced w he s₃ hok.1 hok.2.1 (by rw [hdisk₃]; exact hs)
      (fun e' hne' => by rw [hothers₃ e' hne', State.setCursor_ne _ _ _ hne']; exact hothers₁ e' hne')
      (hattr₃.trans hattr₁) (hholds₃ l₂ hholds₂) hsize'
    refine ⟨s₃, _, ?_, ?_, hkept⟩
    · rw [Prog.run_bind, Prog.run_bind_done (run_dirent ..), if_neg hgo, Prog.run_bind_done hfirst,
        Prog.run_bind_done hloop, u32_of_lt (by omega), Prog.run_bind_done hrun₃, if_pos hok]
      rfl
    · rw [if_pos hok]
      exact hrep
  · have hno : off > (s.dirents e).fileSize ∨ u32 (off + n) < off ∨ off + n > 0xffffffff
        ∨ (s.dirents e).attr &&& attrReadOnly ≠ 0 := by
      by_cases h1 : off ≤ (files e).length
      · by_cases h2 : off + n < 2 ^ 32
        · right; right; right
          by_contra h3
          exact hok ⟨h1, h2, fun h4 => h4 h3⟩
        · right; right; left
          omega
      · left
        omega
    refine ⟨s, chains, ?_, ?_, .refl ..⟩
    · rw [Prog.run_bind, Prog.run_bind_done (run_dirent ..), if_pos hno, if_neg hok]
      rfl
    · rw [if_neg hok]
      exact h

theorem run_etrunc (h : Represents fat E s chains files) {e : Ptr} (he : E e) :
    ∃ s' chains', (Call.exec fat (.etrunc e)).run s =
        .done (Call.spec (ReadOnly s) files (.etrunc e)).1 s' ∧
      Represents fat E s' chains' (Call.spec (ReadOnly s) files (.etrunc e)).2 ∧
      Kept fat E s chains s' chains' := by
  have hchain := h.chain e he
  have hfirst := (h.holds e he).first
  obtain ⟨disk', hrun, hf⟩ := run_etruncLoop w (fat.dataClusCnt + 2) (s.dirents e).firstClus s hchain
    (by have := hchain.length_le; omega)
    (by
      intro c hc
      cases hl : chains e with
      | nil => rw [hl] at hc; simp at hc
      | cons d rest =>
        rw [hl] at hc hfirst
        obtain rfl : d = c := by simpa using hc
        exact hfirst)
    (by
      intro hl
      rw [hl] at hfirst
      have : (s.dirents e).firstClus = 0 := hfirst
      omega)
  obtain ⟨hrep, hkept⟩ := h.replace w he
    (({ s with disk := disk' } : State).setDirent e fun d =>
      { d with fileSize := 0, firstClus := 0, dirty := true }) [] []
    (fun e' hne => State.setDirent_ne _ _ _ _ hne) (by rw [State.setDirent_same]) (Chain.nil _)
    (by rw [State.setDirent_same]; exact ⟨rfl, fun hn => absurd rfl hn⟩)
    (by rw [State.setDirent_same]; rfl) (by simp) (by simp) (fun o ho => by simp at ho)
    (fun c hc => by simp at hc)
    (fun c hc _ hn => by
      refine ⟨?_, fun o ho => hf.byte c o hc ho⟩
      show fatEntry fat disk' c = _
      rw [hf.entry c hc.2, if_neg hn])
  refine ⟨_, _, ?_, hrep, hkept⟩
  simp only [Call.exec, Farron.etrunc]
  rw [Prog.run_bind, Prog.run_bind_done (run_dirent ..), Prog.run_bind_done hrun]
  rfl

theorem Call.run_exec (h : Represents fat E s chains files) (c : Call) (he : E c.entry)
    (hc : c.Words) (hsteps : (c.exec fat).Steps (Sound fat) s) :
    ∃ s' chains', (c.exec fat).run s = .done (c.spec (ReadOnly s) files).1 s' ∧
      Represents fat E s' chains' (c.spec (ReadOnly s) files).2 ∧ Kept fat E s chains s' chains' := by
  cases c with
  | ewrite e src off n => exact run_ewrite w h he hc.1 hc.2 hsteps
  | eread e off n => exact run_eread w h he hc.1 hc.2
  | etrunc e => exact run_etrunc w h he

end Calls

/-! ### Runs -/

/-- The answers depend on which files are read-only, not on the state that says so. -/
theorem specAll_congr {ro ro' : Ptr → Prop} [DecidablePred ro] [DecidablePred ro']
    (h : ∀ e, ro e ↔ ro' e) (files : Ptr → List Byte) (calls : List Call) :
    specAll ro files calls = specAll ro' files calls := by
  obtain rfl : ro = ro' := funext fun e => propext (h e)
  congr

/-- **Files refine byte arrays**, as long as no end mark above 2³¹ is met while a chain
grows. -/
theorem files_refine {fat : Fat} {E : Ptr → Prop} {s : State} {chains : Ptr → List Nat} {files : Ptr → List Byte}
    {calls : List Call} (w : fat.Wf) (h : Represents fat E s chains files) (hcalls : ∀ c ∈ calls, E c.entry ∧ c.Words)
    (hsteps : (execAll fat calls).Steps (Sound fat) s) :
    ∃ s' chains', (execAll fat calls).run s = .done (specAll (ReadOnly s) files calls).1 s' ∧
      Represents fat E s' chains' (specAll (ReadOnly s) files calls).2 ∧ Untouched fat E chains s.disk s'.disk := by
  suffices hs : ∃ s' chains',
      (execAll fat calls).run s = .done (specAll (ReadOnly s) files calls).1 s' ∧
        Represents fat E s' chains' (specAll (ReadOnly s) files calls).2 ∧
          Kept fat E s chains s' chains' by
    obtain ⟨s', chains', hrun, hrep, hkept⟩ := hs
    exact ⟨s', chains', hrun, hrep, hkept.untouched⟩
  induction calls generalizing s chains files with
  | nil => exact ⟨s, chains, rfl, h, .refl ..⟩
  | cons c cs ih =>
    obtain ⟨he, hc⟩ := hcalls c List.mem_cons_self
    simp only [execAll] at hsteps ⊢
    obtain ⟨s₁, chains₁, hrun₁, hrep₁, hkept₁⟩ :=
      Call.run_exec w h c he hc (Prog.steps_bind_left hsteps)
    replace hsteps := Prog.steps_bind_done hsteps hrun₁
    obtain ⟨s₂, chains₂, hrun₂, hrep₂, hkept₂⟩ := ih hrep₁
      (fun d hd => hcalls d (List.mem_cons_of_mem _ hd)) (Prog.steps_bind_left hsteps)
    have hro : ∀ e, ReadOnly s₁ e ↔ ReadOnly s e := by
      intro e
      unfold ReadOnly
      rw [hkept₁.attr e]
    rw [specAll_congr hro] at hrun₂ hrep₂
    refine ⟨s₂, chains₂, ?_, hrep₂, hkept₁.trans hkept₂ fun e he' => (hrep₂.chain e he').inRange⟩
    rw [Prog.run_bind_done hrun₁, Prog.run_bind_done hrun₂]
    rfl

/-! ### An end mark above 2³¹ -/

namespace HighEnd

/-- One sector a cluster, one FAT, four data clusters. -/
def volume : Fat :=
  { bpb := ⟨512, 1, 1, 1, 6, 1, 2⟩
    firstDataSec := 2
    dataSecCnt := 4
    dataClusCnt := 4
    bytsPerClus := 512 }

/-- Cluster 2 is the whole of a file of 512 zeros; its FAT entry is 0xffffffff. -/
def state : State where
  disk := Function.update (fun _ _ => 0) 1 (putWord32 8 0xffffffff fun _ => 0)
  dirents := Function.update (fun _ => Dirent.zero) (.entry 0)
    { Dirent.zero with firstClus := 2, fileSize := 512, curClus := 2, valid := 1, ref := 1 }
  lru := List.finRange _

/-- One byte is written behind the file and read back. -/
def calls : List Call := [.ewrite (.entry 0) (fun _ => 7) 512 1, .eread (.entry 0) 512 1]

theorem wf : volume.Wf := by
  constructor <;> decide

theorem represents : Represents volume (· = .entry 0) state (fun _ => [2]) fun _ => List.replicate 512 0 where
  chain _ _ := by
    refine ⟨.single (by decide), fun c hc => ?_, List.nodup_singleton 2⟩
    obtain rfl : c = 2 := by simpa using hc
    decide
  holds e he := by
    subst he
    exact ⟨rfl, fun _ => rfl⟩
  disjoint e e' he he' hne := absurd (he.trans he'.symm) hne
  regular e he := by
    subst he
    rfl
  size e he := by
    subst he
    rw [List.length_replicate]
    rfl
  word _ _ := by
    rw [List.length_replicate]
    decide
  fits _ _ := by
    rw [List.length_replicate]
    decide
  byte e o he ho := by
    rw [List.length_replicate] at ho
    have hdiv : o / 512 = 0 := Nat.div_eq_of_lt ho
    have hk : [2][o / volume.bytsPerClus]? = some 2 := by
      show [2][o / 512]? = some 2
      rw [hdiv]
      rfl
    rw [List.getElem?_replicate_of_lt ho, chainByte_eq hk]
    show _ = some (state.disk (2 + o % 512 / 512) _)
    rw [show o % 512 / 512 = 0 by omega]
    rfl

end HighEnd

/-- Inside the file the end mark is not met. -/
theorem files_refine_inside : ∃ s' chains', (execAll HighEnd.volume
      [.ewrite (.entry 0) (fun _ => 7) 8 5, .eread (.entry 0) 0 20]).run HighEnd.state = .done (specAll (ReadOnly HighEnd.state)
        (fun _ => List.replicate 512 0) [.ewrite (.entry 0) (fun _ => 7) 8 5, .eread (.entry 0) 0 20]).1 s' ∧
    Represents HighEnd.volume (· = .entry 0) s' chains' (specAll (ReadOnly HighEnd.state) (fun _ => List.replicate 512 0)
      [.ewrite (.entry 0) (fun _ => 7) 8 5, .eread (.entry 0) 0 20]).2 ∧
    Untouched HighEnd.volume (· = .entry 0) (fun _ => [2]) HighEnd.state.disk s'.disk :=
  files_refine HighEnd.wf HighEnd.represents (by decide) (by decide)

/-- The byte is written outside every cluster and read by nobody. -/
theorem not_filesRefine_allocs : ¬ FilesRefine Allocs := by
  intro h
  obtain ⟨s', chains', hrun, _⟩ := h HighEnd.volume _ HighEnd.state _ _ HighEnd.calls HighEnd.wf
    HighEnd.represents (by decide) (by decide)
  have hvalue : _ = some _ := congrArg Outcome.value? hrun
  revert hvalue
  decide +kernel

end Farron
