import Farron.Virtio.Requests

/-! The request protocol of the virtio disk.

Each function takes a thread from one stage to the next; none of them panics. What the
invariant says of the disk alone is `Protocol`: it holds in every state that processes,
interrupts and the device reach (`virtio_protocol`). -/
namespace Farron.Virtio
open Resumption
variable {ι β : Type} [DecidableEq ι] [DecidableEq β]

/-- The program takes thread `p` from one turn to others, and never panics. -/
abbrev Goes {α : Type} (p : ι) (c : Code ι β α) (t : Turn (Hold β)) (Q : α → Turn (Hold β) → Prop) : Prop :=
  Turns Calm Kept (fun e => e = .spin) p c t Q

section Functions
variable {p : ι} {proc : List ι} {rounds : Nat} {held : β → Bool}

/-- With the lock, at some stage. -/
abbrev at' (held : β → Bool) (s : Stage β) : Turn (Hold β) := ⟨true, ⟨held, s⟩⟩

omit [DecidableEq β] in
theorem calm_idle (held : β → Bool) : Calm ⟨held, .idle⟩ := .inl rfl

omit [DecidableEq β] in
theorem calm_flying (held : β → Bool) (n i j k : Nat) (b : β) : Calm ⟨held, .flying n i j k b⟩ :=
  .inr ⟨n, i, j, k, b, rfl⟩

omit [DecidableEq β] in
/-- A section under the lock. -/
theorem goes_update {f : Disk ι β → Disk ι β} {s s' : Stage β}
    (h : ∀ d own, Kept d own → (∀ q, q ≠ p → Calm (own q)) → own p = ⟨held, s⟩ →
      Kept (f d) (Function.update own p ⟨held, s'⟩)) :
    Goes p (update () f) (at' held s) fun _ t' => t' = at' held s' := by
  refine turns_act (fun w w' hf => by cases hf; rfl) fun w T w' hI hT hf => ?_
  cases hf
  exact ⟨⟨held, s'⟩, fun h => (nomatch h), h _ _ hI.own (fun q hq => hI.others (by rw [hT]) hq) (by rw [hT]), rfl⟩

omit [DecidableEq β] in
/-- A look at the disk under the lock, after which the thread is at another stage. -/
theorem goes_fetch {α : Type} {k : Disk ι β → Code ι β α} {s : Stage β} {Q : α → Turn (Hold β) → Prop}
    (h : ∀ d own, Kept d own → (∀ q, q ≠ p → Calm (own q)) → own p = ⟨held, s⟩ →
      ∃ s', Kept d (Function.update own p ⟨held, s'⟩) ∧ Goes p (k d) (at' held s') Q) :
    Goes p (fetch >>= k) (at' held s) Q := by
  refine turns_act (fun w w' hf => by cases hf; rfl) fun w T w' hI hT hf => ?_
  cases hf
  obtain ⟨s', hK, hk⟩ := h _ _ hI.own (fun q hq => hI.others (by rw [hT]) hq) (by rw [hT])
  exact ⟨⟨held, s'⟩, fun h => (nomatch h), hK, hk⟩

omit [DecidableEq β] in
theorem kept_self {d : Disk ι β} {own : ι → Hold β} (h : Kept d own) {s : Stage β} (hp : own p = ⟨held, s⟩) :
    Kept d (Function.update own p ⟨held, s⟩) := by
  rw [← hp, Function.update_eq_self]
  exact h

omit [DecidableEq β] in
theorem goes_allocDesc (l : List Nat) :
    Goes p (allocDesc : Code ι β (Option Nat)) (at' held (.taken l)) fun r t' => t' = at' held (.taken (l ++ r.toList)) := by
  refine turns_act (fun w w' hf => by cases hf; rfl) fun w T w' hI hT hf => ?_
  cases hf
  have hp : (T p).own = ⟨held, .taken l⟩ := by rw [hT]
  cases hfree : w.data.firstFree with
  | none =>
    refine ⟨⟨held, .taken l⟩, fun h => (nomatch h), ?_, ?_⟩
    · rw [Disk.allocDesc, hfree]
      exact kept_self hI.own hp
    · show _ = _
      rw [Option.toList_none, List.append_nil]
  | some i =>
    exact ⟨⟨held, .taken (l ++ [i])⟩, fun h => (nomatch h), Kept.gain hI.own hp hfree, rfl⟩

/-- `free_desc` of the first descriptor that the thread has. -/
theorem goes_freeDesc {i : Nat} {l : List Nat} {s t : Stage β} (hs : s.descs = i :: l) (ht : t.descs = l)
    (hrequest : s.request = none) (hfly : ∀ n i j k b, s ≠ .flying n i j k b) (hbump : s ≠ .bumping)
    (hfits : ∀ d : Disk ι β, Fits d ⟨held, s⟩ → Fits (d.freeDesc i) ⟨held, t⟩) :
    Goes p (freeDesc proc i) (at' held s) fun _ t' => t' = at' held t := by
  refine goes_fetch fun d own hK hcalm hp => ⟨s, kept_self hK hp, ?_⟩
  obtain ⟨hlt, hfree⟩ := hK.range p i (by rw [hp, hs]; exact List.mem_cons_self ..)
  rw [if_neg (by omega), hfree]
  refine turns_seq (goes_update fun d own hK hcalm hp => ?_) fun _ => turns_wakeup Chan.free proc
  have hf := hK.fits p
  rw [hp] at hf
  exact hK.lose hcalm (by rw [hp]; exact hs) ht (by rw [hp]) (by rw [hp]; exact hrequest)
    (by rw [hp]; exact hfly) (by rw [hp]; exact hbump) (hfits d hf)

theorem goes_giveBack (i : Nat) (l : List Nat) :
    Goes p (freeDesc proc i : Code ι β Unit) (at' held (.taken (i :: l))) fun _ t' => t' = at' held (.taken l) :=
  goes_freeDesc rfl rfl rfl (fun _ _ _ _ _ h => nomatch h) (fun h => nomatch h) fun _ _ => trivial

/-- The descriptors after `alloc3_desc`. -/
def three : Option (Nat × Nat × Nat) → List Nat
  | none => []
  | some (i, j, k) => [i, j, k]

theorem goes_alloc3Desc :
    Goes p (alloc3Desc proc : Code ι β _) (at' held .idle) fun r t' => t' = at' held (.taken (three r)) := by
  refine Triple.bind (goes_allocDesc []) fun r t ht => ?_
  subst ht
  cases r with
  | none => exact Triple.ret rfl
  | some i =>
    refine Triple.bind (goes_allocDesc [i]) fun r t ht => ?_
    subst ht
    cases r with
    | none => exact turns_seq (goes_giveBack i []) fun _ => Triple.ret rfl
    | some j =>
      refine Triple.bind (goes_allocDesc [i, j]) fun r t ht => ?_
      subst ht
      cases r with
      | none => exact turns_seq (goes_giveBack i [j]) fun _ => turns_seq (goes_giveBack j []) fun _ => Triple.ret rfl
      | some k => exact Triple.ret rfl

theorem goes_waitDescs (n : Nat) :
    Goes p (waitDescs p proc n : Code ι β _) (at' held .idle) fun r t' => t' = at' held (.taken [r.1, r.2.1, r.2.2]) := by
  induction n with
  | zero => exact Triple.stop rfl
  | succ n ih =>
    refine Triple.bind goes_alloc3Desc fun r t ht => ?_
    subst ht
    cases r with
    | none => exact turns_seq (turns_sleep (calm_idle held) Chan.free) fun _ => ih
    | some idx => exact Triple.ret rfl

omit [DecidableEq β] in
theorem goes_waitDone {n i j k : Nat} {b : β} (m : Nat) :
    Goes p (waitDone p b m : Code ι β Unit) (at' held (.flying n i j k b))
      fun _ t' => t' = at' held (.landed n i j k b) := by
  induction m with
  | zero => exact Triple.stop rfl
  | succ m ih =>
    refine goes_fetch fun d own hK hcalm hp => ?_
    by_cases hbusy : d.busy b = true
    · rw [if_pos hbusy]
      refine ⟨_, kept_self hK hp, turns_seq (turns_sleep (calm_flying held n i j k b) (Chan.buf b)) fun _ => ih⟩
    · rw [if_neg hbusy]
      obtain ⟨hf, hheld⟩ := hK.flight (q := p) (n := n) (i := i) (j := j) (k := k) (b := b) (by rw [hp])
      have hin : n ∈ d.processed := by
        by_contra hnot
        exact hbusy (hf.busy.mpr hnot)
      rw [hp] at hheld
      refine ⟨.landed n i j k b, hK.turns hcalm (by rw [hp]) (by rw [hp]; rfl) (by rw [hp]; rfl) ⟨hf, hin, hheld⟩
        (fun n' i' j' k' b' hs => ?_) (by rw [hp]; exact fun h => nomatch h), Triple.ret rfl⟩
      rw [hp] at hs
      injection hs with hn
      exact .inl (hn ▸ hin)

theorem goes_freeChain (l : List Nat) (n i : Nat) (hn : l.length < n) :
    Goes p (freeChain proc n i : Code ι β Unit) (at' held (.freeing (i :: l))) fun _ t' => t' = at' held .idle := by
  induction l generalizing n i with
  | nil =>
    obtain ⟨m, rfl⟩ := Nat.exists_eq_succ_of_ne_zero (Nat.ne_of_gt hn)
    refine turns_seq (goes_freeDesc (t := .freed i []) rfl rfl rfl (fun _ _ _ _ _ h => by cases h) (fun h => by cases h)
      fun d hf => hf.1.congr fun y _ => d.freeDesc_links i y) fun _ => ?_
    refine goes_fetch fun d own hK hcalm hp => ⟨.idle, ?_, ?_⟩
    · exact hK.turns hcalm (by rw [hp]) (by rw [hp]; rfl) (by rw [hp]; rfl) trivial
        (fun _ _ _ _ _ hs => by rw [hp] at hs; cases hs) (by rw [hp]; exact fun h => by cases h)
    · have hf := hK.fits p
      rw [Fits, hp] at hf
      have hlast : (d.desc i).flags &&& flagNext = 0 := hf
      rw [hlast]
      exact Triple.ret rfl
  | cons j l ih =>
    obtain ⟨m, rfl⟩ := Nat.exists_eq_succ_of_ne_zero (Nat.ne_of_gt (Nat.zero_lt_of_lt hn))
    refine turns_seq (goes_freeDesc (t := .freed i (j :: l)) rfl rfl rfl (fun _ _ _ _ _ h => by cases h) (fun h => by cases h)
      fun d hf => hf.1.congr fun y _ => d.freeDesc_links i y) fun _ => ?_
    refine goes_fetch fun d own hK hcalm hp => ⟨.freeing (j :: l), ?_, ?_⟩
    · have hf := hK.fits p
      rw [Fits, hp] at hf
      exact hK.turns hcalm (by rw [hp]) (by rw [hp]; rfl) (by rw [hp]; rfl) ⟨hf.2.2, by simp⟩
        (fun _ _ _ _ _ hs => by rw [hp] at hs; cases hs) (by rw [hp]; exact fun h => by cases h)
    · have hf := hK.fits p
      rw [Fits, hp] at hf
      obtain ⟨hnext, hj, -⟩ : (d.desc i).flags &&& flagNext ≠ 0 ∧ (d.desc i).next = j ∧ d.Linked (j :: l) := hf
      rw [if_pos hnext, hj]
      exact ih m j (by simpa using hn)

theorem goes_virtioDiskRw {b : β} (write : Bool) (hb : held b = true) :
    Goes p (virtioDiskRw p proc rounds b write) ⟨false, ⟨held, .idle⟩⟩ fun _ t' => t' = ⟨false, ⟨held, .idle⟩⟩ := by
  refine turns_seq (turns_look fun w T hI hT => Triple.ret rfl) fun d => ?_
  refine turns_seq turns_acquire fun _ => ?_
  refine Triple.bind (goes_waitDescs rounds) fun idx t ht => ?_
  subst ht
  obtain ⟨i, j, k⟩ := idx
  refine turns_seq (goes_update fun d own hK hcalm hp => hK.format hcalm hp b write _) fun _ => ?_
  refine turns_seq (goes_update fun d own hK hcalm hp => hK.record hcalm hp hb) fun _ => ?_
  have hrest : ∀ n, Goes p (do
      waitDone p b rounds
      update () fun d => d.forget i
      freeChain proc num i
      release p) (at' held (.flying n i j k b)) fun _ t' => t' = ⟨false, ⟨held, .idle⟩⟩ := by
    intro n
    refine turns_seq (goes_waitDone rounds) fun _ => ?_
    refine turns_seq (goes_update fun d own hK hcalm hp => hK.forget hcalm hp) fun _ => ?_
    exact turns_seq (goes_freeChain [j, k] num i (by simp [num])) fun _ => turns_release (calm_idle held)
  -- the number of the request is what `subs` has grown to
  refine turns_act (fun w w' hf => by cases hf; rfl) fun w T w' hI hT hf => ?_
  cases hf
  exact ⟨⟨held, .flying w.data.subs.length i j k b⟩, fun h => (nomatch h),
    Kept.publish hI.own (fun q hq => hI.others (by rw [hT]) hq) (by rw [hT]), hrest _⟩

theorem goes_intrLoop (n : Nat) :
    Goes p (intrLoop proc n : Code ι β Unit) (at' held .idle) fun _ t' => t' = at' held .idle := by
  induction n with
  | zero => exact Triple.stop rfl
  | succ n ih =>
    refine goes_fetch fun d own hK hcalm hp => ?_
    have hidle : (own p).stage ≠ .bumping := by
      rw [hp]
      exact fun h => nomatch h
    by_cases hmore : d.usedIdx % num ≠ d.usedId % num
    · rw [if_pos hmore]
      refine ⟨.looking, hK.turns hcalm (by rw [hp]) (by rw [hp]; rfl) (by rw [hp]; rfl)
        ((hK.more_iff hcalm hidle).mp hmore) (fun _ _ _ _ _ hs => by rw [hp] at hs; cases hs) hidle, ?_⟩
      refine goes_fetch fun d own hK hcalm hp => ?_
      obtain ⟨b, hlt, hinfo, hfound⟩ := hK.find hcalm hp
      refine ⟨.found b, hfound, ?_⟩
      simp only [hinfo]
      rw [if_neg (by omega), if_neg (by simp)]
      refine turns_seq (goes_update fun d own hK hcalm hp => hK.clear hcalm hp) fun _ => ?_
      refine turns_seq (turns_wakeup (Chan.buf b) proc) fun _ => ?_
      exact turns_seq (goes_update fun d own hK hcalm hp => hK.bump hcalm hp) fun _ => ih
    · rw [if_neg hmore]
      exact ⟨_, kept_self hK hp, Triple.ret rfl⟩

theorem goes_virtioDiskIntr :
    Goes p (virtioDiskIntr p proc rounds : Code ι β Unit) ⟨false, ⟨held, .idle⟩⟩
      fun _ t' => t' = ⟨false, ⟨held, .idle⟩⟩ :=
  turns_seq turns_acquire fun _ => turns_seq (goes_intrLoop rounds) fun _ => turns_release (calm_idle held)

omit [DecidableEq β] in
/-- What the device does at once. -/
theorem goes_device {f : Disk ι β → Disk ι β} (h : ∀ d own, Kept d own → Kept (f d) own) {t : Turn (Hold β)} :
    Goes p (update () f) t fun _ t' => t' = t := by
  refine turns_act (fun w w' hf => by cases hf; rfl) fun w T w' hI hT hf => ?_
  cases hf
  refine ⟨t.own, fun hlk => ?_, ?_, rfl⟩
  · rw [← hT] at hlk ⊢
    exact hI.calm p hlk
  · rw [← hT, Function.update_eq_self p fun j => (T j).own]
    exact h _ _ hI.own

end Functions

/-! ### The threads -/

/-- The buffers that a thread has locked. -/
def Role.held : Role β → β → Bool
  | .process held => held
  | _ => fun _ => false

/-- What an idle thread has. -/
def Idle (l : Role β) (t : Turn (Hold β)) : Prop := t = ⟨false, ⟨l.held, .idle⟩⟩

theorem goes_call {p : ι} {proc : List ι} {rounds : Nat} {l : Role β} {c : Call β} {t : Turn (Hold β)}
    (he : Call.enabled l c) (ht : Idle l t) : Goes p (c.body p proc rounds l) t Idle := by
  subst ht
  cases c with
  | lock b =>
    cases l with
    | process held =>
      refine turns_act (fun w w' hf => ?_) fun w T w' hI hT hf => ?_
      · obtain ⟨d, -, rfl⟩ := Option.map_eq_some_iff.mp hf
        rfl
      · obtain ⟨d, hd, rfl⟩ := Option.map_eq_some_iff.mp hf
        unfold Disk.acquired at hd
        by_cases hfree : w.data.lock b = none
        · rw [if_pos hfree] at hd
          cases hd
          have hp : (T p).own = ⟨held, .idle⟩ := by
            rw [hT]
            rfl
          refine ⟨⟨Function.update held b true, .idle⟩, fun _ => calm_idle _,
            Kept.relock hI.own (by rw [hp]) (fun b' hb' => ?_) (fun q b' hq hb' => ?_), rfl⟩
          · by_cases hbb : b' = b
            · rw [hbb, Function.update_self]
            · rw [Function.update_of_ne hbb] at hb' ⊢
              exact hI.own.held p b' (by rw [hp]; exact hb')
          · have hbb : b' ≠ b := by
              intro hbb
              rw [hbb, hfree] at hb'
              cases hb'
            rw [Function.update_of_ne hbb]
            exact hb'
        · rw [if_neg hfree] at hd
          cases hd
    | interrupt => exact he.elim
    | device => exact he.elim
  | unlock b =>
    cases l with
    | process held =>
      have hheld : held b = true := he
      refine turns_act (fun w w' hf => by cases hf; rfl) fun w T w' hI hT hf => ?_
      cases hf
      have hp : (T p).own = ⟨held, .idle⟩ := by
        rw [hT]
        rfl
      have hmine := hI.own.held p b (by rw [hp]; exact hheld)
      refine ⟨⟨Function.update held b false, .idle⟩, fun _ => calm_idle _,
        Kept.relock hI.own (by rw [hp]) (fun b' hb' => ?_) (fun q b' hq hb' => ?_), rfl⟩
      · have hbb : b' ≠ b := by
          intro hbb
          rw [hbb, Function.update_self] at hb'
          cases hb'
        rw [Function.update_of_ne hbb] at hb' ⊢
        exact hI.own.held p b' (by rw [hp]; exact hb')
      · have hbb : b' ≠ b := by
          intro hbb
          rw [hbb, hmine] at hb'
          exact hq (Option.some.inj hb').symm
        rw [Function.update_of_ne hbb]
        exact hb'
    | interrupt => exact he.elim
    | device => exact he.elim
  | rw b write =>
    cases l with
    | process held => exact turns_seq (goes_virtioDiskRw write he) fun _ => Triple.ret rfl
    | interrupt => exact he.elim
    | device => exact he.elim
  | intr => exact turns_seq goes_virtioDiskIntr fun _ => Triple.ret rfl
  | take => exact turns_seq (goes_device fun d own hK => hK.take) fun _ => Triple.ret rfl
  | complete m => exact turns_seq (goes_device fun d own hK => hK.complete m) fun _ => Triple.ret rfl

omit [DecidableEq ι] [DecidableEq β] in
theorem kept_init (sectorno : β → Nat) (header : ι → Header) :
    Kept (Disk.init sectorno header) fun _ => (⟨fun _ => false, .idle⟩ : Hold β) where
  held _ _ hb := nomatch hb
  range _ _ hx := nomatch hx
  nodup _ := List.nodup_nil
  apart _ _ _ hx := nomatch hx
  taken x hx hf := by
    have : decide (x < num) = false := hf
    rw [decide_eq_true hx] at this
    cases this
  fits _ := trivial
  info _ _ hb := nomatch hb
  flying _ hn := absurd hn (Nat.not_lt_zero _)
  counted _ := rfl
  rings := {
    availIdx := rfl
    seen := rfl
    took := Nat.le_refl _
    numbers := List.Perm.refl _
    heads := fun _ hx => nomatch hx
    avail := fun _ _ _ _ hs => nomatch hs
    usedId := rfl
    elems := fun _ _ _ _ _ hn => nomatch hn
    seenDone := Nat.le_refl _
    cleared := fun _ _ hb => nomatch hb }

/-! ### The protocol -/

/-- The head of the chain of a request in flight, and its buffer. -/
def Disk.InFlight (d : Disk ι β) (h : Nat) (b : β) : Prop := (d.info h).b = some b

/-- What holds of the disk at any time, and between the turns of its lock. -/
structure Protocol (w : World ι (Chan β) (Disk ι β)) : Prop where
  /-- A request has three descriptors, none of them free. -/
  chain : ∀ h b, w.data.InFlight h b → (w.data.chain h).length = 3 ∧ (w.data.chain h).Nodup ∧
    ∀ x ∈ w.data.chain h, x < num ∧ w.data.free x = false
  disjoint : ∀ h h' b b', w.data.InFlight h b → w.data.InFlight h' b' → h ≠ h' →
    (w.data.chain h).Disjoint (w.data.chain h')
  /-- Together with the free descriptors they are all. -/
  all : w.lk = none → ∀ x, x < num → w.data.free x = true ∨ ∃ h b, w.data.InFlight h b ∧ x ∈ w.data.chain h
  /-- The `m`-th buffer found done is that of the `m`-th chain completed. -/
  cleared : ∀ (m : Nat) (b : β), w.data.cleared[m]? = some b →
    ∃ n h : Nat, w.data.dones[m]? = some n ∧ w.data.subs[n]? = some (h, b)
  /-- The device has completed no chain twice, and none that it was not given. -/
  once : w.data.dones.Nodup ∧ ∀ n ∈ w.data.dones, n < w.data.subs.length
  /-- A buffer is done exactly from when the completion of its chain has been seen. -/
  busy : w.lk = none → ∀ h b, w.data.InFlight h b → ∃ n : Nat, w.data.subs[n]? = some (h, b) ∧
    (w.data.busy b = false ↔ ∃ m : Nat, m < w.data.cleared.length ∧ w.data.dones[m]? = some n)
  /-- `used_idx` is where the next completion is, as far as the device has come. -/
  used : w.lk = none → w.data.usedIdx = w.data.cleared.length % num
  behind : w.data.cleared.length ≤ w.data.dones.length ∧ w.data.dones.length ≤ w.data.cleared.length + 2

omit [DecidableEq ι] [DecidableEq β] in
/-- The chain of a request that `disk.info` knows. -/
theorem Kept.request_chain {d : Disk ι β} {own : ι → Hold β} (hK : Kept d own) {p : ι} {h : Nat} {b : β}
    (hp : (own p).stage.request = some (h, b)) :
    d.chain h = (own p).stage.descs ∧ (own p).stage.descs.length = 3 := by
  have hf := hK.fits p
  unfold Fits at hf
  cases hs : (own p).stage with
  | recorded i j k b' =>
    rw [hs] at hp hf
    cases hp
    exact ⟨hf.1.linked.chain, rfl⟩
  | flying n i j k b' =>
    rw [hs] at hp hf
    cases hp
    exact ⟨hf.1.linked.chain, rfl⟩
  | landed n i j k b' =>
    rw [hs] at hp hf
    cases hp
    exact ⟨hf.1.linked.chain, rfl⟩
  | taken l | formatted i j k | freeing l | freed i l | looking | found b' | bumping =>
    rw [hs] at hp
    cases hp

omit [DecidableEq ι] [DecidableEq β] in
theorem guarded_protocol {w : World ι (Chan β) (Disk ι β)} {T : ι → Turn (Hold β)} (hI : Guarded Calm Kept w T) :
    Protocol w := by
  have hK := hI.own
  refine ⟨fun h b hb => ?_, fun h h' b b' hb hb' hne x hx hx' => ?_, fun hlk x hx => ?_, hK.rings.cleared,
    ⟨hK.rings.nodup, fun n hn => (hK.rings.done_lt hn).trans_le hK.rings.took⟩, fun hlk h b hb => ?_, fun hlk => ?_,
    hK.rings.seenDone, ?_⟩
  · obtain ⟨p, hp⟩ := hK.info h b hb
    obtain ⟨hchain, hlen⟩ := hK.request_chain hp
    rw [hchain]
    exact ⟨hlen, hK.nodup p, hK.range p⟩
  · obtain ⟨p, hp⟩ := hK.info h b hb
    obtain ⟨q, hq⟩ := hK.info h' b' hb'
    rw [(hK.request_chain hp).1] at hx
    rw [(hK.request_chain hq).1] at hx'
    cases hK.apart p q x hx hx'
    rw [hp] at hq
    cases hq
    exact hne rfl
  · cases hfree : w.data.free x with
    | true => exact .inl rfl
    | false =>
      obtain ⟨p, hp⟩ := hK.taken x hx hfree
      obtain hs | ⟨n, i, j, k, b, hs⟩ := hI.free hlk p
      · rw [hs] at hp
        cases hp
      · have hreq : (T p).own.stage.request = some (i, b) := by
          rw [hs]
          rfl
        refine .inr ⟨i, b, ?_, ?_⟩
        · rw [Disk.InFlight, (hK.flight hs).1.info]
        · rw [(hK.request_chain hreq).1]
          exact hp
  · obtain ⟨p, hp⟩ := hK.info h b hb
    obtain hs | ⟨n, i, j, k, b', hs⟩ := hI.free hlk p
    · rw [hs] at hp
      cases hp
    · rw [hs] at hp
      cases hp
      have hf := (hK.flight hs).1
      refine ⟨n, hf.sub, ?_⟩
      rw [← Bool.not_eq_true, hf.busy, not_not, Disk.processed, List.mem_take_iff_getElem]
      constructor
      · intro hin
        obtain ⟨m, hm, hn⟩ := hin
        exact ⟨m, by omega, List.getElem?_eq_some_iff.mpr ⟨by omega, hn⟩⟩
      · intro hin
        obtain ⟨m, hm, hn⟩ := hin
        obtain ⟨hlt, hn⟩ := List.getElem?_eq_some_iff.mp hn
        exact ⟨m, by omega, hn⟩
  · refine hK.counted fun p hp => ?_
    obtain hs | ⟨n, i, j, k, b, hs⟩ := hI.free hlk p
    · rw [hs] at hp
      cases hp
    · rw [hs] at hp
      cases hp
  · have hfew := hK.few
    have htook : w.data.dones.length + w.data.pending.length ≤ w.data.subs.length := hK.rings.took
    omega

/-- **The virtio request protocol.** Whatever processes, interrupts and the device do, the
protocol holds, and no thread panics. -/
theorem virtio_protocol (proc : List ι) (rounds : Nat) (procs : ι → Proc ι (Chan β)) (sectorno : β → Nat)
    (header : ι → Header) (kind : ι → Kind) {g : Config Unit Stop (World ι (Chan β) (Disk ι β)) ι (Role β)}
    (hg : Reach (client proc rounds) (fun _ _ => True) (start procs sectorno header kind) g) :
    Protocol g.shared ∧ ∀ p e, g.thread p = .stop e → e = .spin := by
  have h₀ : Covered (Guarded Calm Kept) (fun _ _ => True) (fun _ _ => True) (fun e => e = .spin) Idle
      (start procs sectorno header kind) := by
    refine ⟨fun _ => ⟨false, ⟨fun _ => false, .idle⟩⟩, ⟨fun p => ?_, fun _ _ => calm_idle _, kept_init sectorno header⟩,
      fun p => Triple.ret ?_⟩
    · exact ⟨fun h => (nomatch h), fun h => (nomatch h)⟩
    · cases hk : kind p <;> rfl
  obtain ⟨T, hI, hT⟩ := Reach.sound (fun p l c t he ht => goes_call he ht)
    (fun _ _ _ _ _ _ _ _ _ _ _ _ hp => False.elim hp) h₀ hg
  refine ⟨guarded_protocol hI, fun p e he => ?_⟩
  have ht := hT p
  rw [he] at ht
  exact ht

/-- A process, an interrupt handler and the device. -/
def threeThreads : Config Unit Stop (World (Fin 3) (Chan Unit) (Disk (Fin 3) Unit)) (Fin 3) (Role Unit) :=
  start (fun _ => ⟨.running, none, false, 1, none⟩) (fun _ => 7) (fun _ => ⟨0, 0, 0⟩)
    fun p => if p = 0 then .process else if p = 1 then .interrupt else .device

instance : ∀ (l : Role β) c, Decidable (Call.enabled l c)
  | .process _, .lock _ => isTrue trivial
  | .process held, .unlock b | .process held, .rw b _ => inferInstanceAs (Decidable (held b = true))
  | .interrupt, .intr | .device, .take | .device, .complete _ => isTrue trivial
  | .process _, .intr | .process _, .take | .process _, .complete _ | .interrupt, .lock _ | .interrupt, .unlock _
  | .interrupt, .rw _ _ | .interrupt, .take | .interrupt, .complete _ | .device, .lock _ | .device, .unlock _
  | .device, .rw _ _ | .device, .intr => isFalse id

instance (proc : List ι) (rounds : Nat) (l : Role β) (c : Call β) : Decidable ((client proc rounds).enabled l c) :=
  inferInstanceAs (Decidable (Call.enabled l c))

instance (proc : List ι) (rounds : Nat) (l l' m m' : Role β) :
    Decidable ((client proc rounds : Client Unit Stop (World ι (Chan β) (Disk ι β)) ι (Role β) (Call β)).pass l l' m m') := isFalse id

/-- A request is made, completed and found done while the process sleeps. -/
theorem virtio_protocol_completed : ∃ g, Reach (client [0] 4) (fun _ _ => True) threeThreads g ∧ Protocol g.shared ∧
    g.shared.data.cleared = [()] ∧ (g.shared.data.chain 0).Perm [0, 1, 2] := by
  obtain ⟨g, hg, hcleared, hchain⟩ : ∃ g, Reach (client [0] 4) (fun _ _ => True) threeThreads g ∧
      g.shared.data.cleared = [()] ∧ (g.shared.data.chain 0).Perm [0, 1, 2] := Reach.of_play
    [.begin 0 (.lock ()), .acts 0 1, .begin 0 (.rw () true), .acts 0 13, .begin 2 .take, .acts 2 1, .begin 2 (.complete 0),
      .acts 2 1, .begin 1 .intr, .acts 1 8] (by decide +kernel)
  exact ⟨g, hg, (virtio_protocol _ _ _ _ _ _ hg).1, hcleared, hchain⟩

end Farron.Virtio
