import Farron.Fat.Slots
import Farron.File.Stat

/-! Which bytes of a `struct stat` come from the file.

`estat` stores no byte in the padding, and none in the last one of `name` (`estat_untouched`).
The structure is copied out whole, so each `fstat` and each `readdir` that succeeds shows the
process what was on the kernel stack (`statMeets_iff`). -/
namespace Farron.Stat
open Resumption Strings
open Files (FileType)
open Memory (u64)

/-! ### The bytes that are stored -/

/-- The last byte of `name` and the padding. -/
def Untouched (o : Nat) : Prop := 32 ≤ o ∧ o < devAt ∨ 42 ≤ o ∧ o < sizeAt

section Estat
variable (d : Dirent) (dev : Byte) {o : Nat}

/-- **What was in the structure before shows.** -/
theorem estat_untouched (st : Bytes) (ho : Untouched o) : estat d dev st o = st o := by
  unfold Untouched devAt sizeAt at ho
  rw [estat, overwrite_out _ _ (.inl (by unfold sizeAt; omega)), overwrite_out _ _ (by unfold devAt; omega),
    overwrite_out _ _ (by unfold typeAt; omega), strncpy_out _ (.inr (by unfold statMaxName; omega))]

end Estat

/-! ### Runs of the calls -/

/-- What a function of the file system, or one of the file, leaves as it is. -/
structure Kept (s s' : System) : Prop where
  sz : s'.sz = s.sz
  user : s'.user = s.user
  returned : s'.returned = s.returned
  ended : s'.ended = s.ended

namespace Kept

theorem refl (s : System) : Kept s s := ⟨rfl, rfl, rfl, rfl⟩

theorem trans (s₁ s₂ s₃ : System) (h : Kept s₁ s₂) (h' : Kept s₂ s₃) : Kept s₁ s₃ :=
  ⟨h'.sz.trans h.sz, h'.user.trans h.user, h'.returned.trans h.returned, h'.ended.trans h.ended⟩

theorem outside {s s' : System} (h : Kept s s') (pid addr len : Nat) : s'.outside pid addr len ↔ s.outside pid addr len := by
  unfold System.outside
  rw [h.sz]

end Kept

section Within
variable (fat : Fat) (pid : Nat)

theorem within_onFs {α : Type} (p : Fs α) : (onFs p).Within (fun _ => Kept) fun _ => True :=
  Prog.within_zoom (fun _ _ _ => ⟨rfl, rfl, rfl, rfl⟩) (fun _ => trivial) p

theorem within_moveOff (count : Nat) : (moveOff count).Within (fun _ => Kept) fun _ => True :=
  Prog.Within.look _ _ Kept.refl fun _ => Prog.Within.change _ _ fun _ => ⟨rfl, rfl, rfl, rfl⟩

theorem within_setPhase (p : Phase) : (setPhase pid p).Within (fun _ => Kept) fun _ => True :=
  Prog.Within.change _ _ fun _ => ⟨rfl, rfl, rfl, rfl⟩

theorem within_dirnextLoop (ep : Ptr) (valid : Int) (n count : Nat) :
    (dirnextLoop fat ep valid n count).Within (fun _ => Kept) fun _ => True := by
  induction n generalizing count with
  | zero => trivial
  | succ n ih =>
    refine Prog.Within.look _ _ Kept.refl fun s => (within_onFs _).bind fun r => ?_
    split
    · exact (within_moveOff _).bind fun _ => ih _
    · trivial

theorem within_dirnextFind (ep : Ptr) (valid : Int) :
    (dirnextFind fat pid ep valid).Within (fun _ => Kept) fun _ => True :=
  (within_onFs _).bind fun _ => (within_dirnextLoop ..).bind fun _ => (within_setPhase ..).bind fun _ =>
    (within_onFs _).bind fun _ => trivial

end Within

section Runs
variable {fat : Fat} {pid : Nat} {fd : Int} {s s' : System} {e : Ptr}

theorem run_file : file.run s = .done s.file s := rfl

theorem run_argfd : (argfd pid fd).run s = .done (s.isOpen pid fd) s := rfl

theorem run_copyout2_in (addr : Nat) (src : Bytes) {len : Nat} (h : ¬ s.outside pid addr len) : (copyout2 pid addr src len).run s =
    .done 0 (s.copied pid addr src len) := by
  rw [copyout2, Prog.run_act_some, if_neg h, if_neg h]
  rfl

theorem run_copyout2_out (addr : Nat) (src : Bytes) {len : Nat} (h : s.outside pid addr len) :
    (copyout2 pid addr src len).run s = .done (-1) s := by
  rw [copyout2, Prog.run_act_some, if_pos h, if_pos h]
  rfl

/-- What `filestat` comes to once it has the dirent's lock. -/
theorem run_filestat (addr : Nat) (frame : Frame) (htype : s.file.type = .entry) (hep : s.file.ep = some e)
    (href : 1 ≤ (s.fs.dirents e).ref) (hlock : (s.fs.dirents e).lock = none) : ∃ fs, (filestat pid frame addr).run s =
      (copyout2 pid addr (estat (s.fs.dirents e) 0 frame.st) statSz >>= fun r =>
        if r < 0 then return -1 else return 0).run (s.setFs fs) := by
  obtain ⟨fs, hfs⟩ : ∃ fs, s.fs.setDirent e (fun d => { d with lock := some pid }) = fs := ⟨_, rfl⟩
  have hl : (elock pid (some e)).run s.fs = .done () fs := by rw [run_elock, if_neg (by omega), if_pos hlock, hfs]
  have hd : fs.dirents e = { s.fs.dirents e with lock := some pid } := by rw [← hfs, State.setDirent_same]
  have hu := run_eunlock fs (by rw [hd] : (fs.dirents e).lock = some pid) (by rw [hd]; show ¬ (s.fs.dirents e).ref < 1; omega)
  refine ⟨fs.setDirent e fun d => { d with lock := none }, ?_⟩
  rw [filestat, Prog.run_bind_done run_file, if_pos htype, hep]
  show (onFs (elock pid (some e)) >>= _).run s = _
  rw [Prog.run_bind_done (by rw [run_onFs, hl]; rfl), Prog.run_bind_done run_onFs_dirent]
  show (onFs (eunlock pid (some e)) >>= fun _ => copyout2 pid addr (estat (fs.dirents e) 0 frame.st) statSz >>= _).run
    (s.setFs fs) = _
  rw [Prog.run_bind_done (by rw [run_onFs]; exact congrArg _ hu), hd]
  rfl

/-- `enext` panics on an entry that claims to be valid. -/
theorem dirnextFind_valid {valid : Int} {r : Next} (h : (dirnextFind fat pid e valid).run s = .done r s')
    (hdir : (s.fs.dirents e).attr &&& attrDirectory ≠ 0) : valid = 0 := by
  by_contra hvalid
  rw [dirnextFind, Prog.run_bind, run_onFs, run_elock] at h
  split_ifs at h with href hlock
  · cases h
  · have hscan : ∀ fs : State, (fs.dirents e).attr = (s.fs.dirents e).attr →
        (dirnextLoop fat e valid (maxSlots + 1) 0).run (s.setFs fs) = .stopped (.panic "enext ep valid") := by
      intro fs hattr
      have hnext : (enext fat e valid s.file.off 0).run fs = .stopped (.panic "enext ep valid") := by
        rw [enext, enextIn, Prog.run_bind_done (run_dirent ..), hattr, if_neg hdir, if_pos hvalid, run_panic]
      rw [dirnextLoop, Prog.run_act]
      show (onFs (enext fat e valid s.file.off 0) >>= _).run (s.setFs fs) = _
      rw [Prog.run_bind, run_onFs]
      show Outcome.andThen (((enext fat e valid s.file.off 0).run fs).within _) _ = _
      rw [hnext]
      rfl
    simp only [Outcome.within, Outcome.done_andThen, Prog.run_bind] at h
    rw [hscan _ (by rw [State.setDirent_same])] at h
    cases h
  · cases h

theorem run_moveOff (count : Nat) :
    (moveOff count).run s = .done () { s with file := { s.file with off := u32 (s.file.off + recordSz * count) } } := rfl

theorem run_setPhase (p : Phase) :
    (setPhase pid p).run s = .done () { s with phase := Function.update s.phase pid p } := rfl

/-- The file and the history of a process once `dirnext` has gone past a record. -/
def System.past (s : System) (pid count : Nat) : System :=
  { s with
    file := { s.file with off := u32 (s.file.off + recordSz * count) }
    phase := Function.update s.phase pid .moved }

theorem run_dirnextCopy_in (addr : Nat) (frame : Frame) (r : Next) (h : ¬ s.outside pid addr statSz) :
    ∃ s', (dirnextCopy pid frame addr r).run s = .done 1 s' ∧ s'.user = Function.update s.user pid
      (overwrite addr statSz (estat (Next.fill r frame.de) frame.dev frame.st) (s.user pid)) := by
  have hin : ¬ (s.past pid r.count).outside pid addr statSz := h
  have hrun := run_copyout2_in addr (estat (Next.fill r frame.de) frame.dev frame.st) hin
  refine ⟨{ (s.past pid r.count).copied pid addr (estat (Next.fill r frame.de) frame.dev frame.st) statSz with
    phase := Function.update (s.past pid r.count).phase pid .idle
    returned := s.returned ++ [⟨pid, frame, estat (Next.fill r frame.de) frame.dev frame.st⟩] }, ?_, rfl⟩
  rw [dirnextCopy, Prog.run_bind_done (run_moveOff _), Prog.run_bind_done (run_setPhase _)]
  show (copyout2 pid addr _ statSz >>= _).run (s.past pid r.count) = _
  rw [Prog.run_bind_done hrun, if_neg (by decide)]
  rfl

theorem run_dirnextCopy_out (addr : Nat) (frame : Frame) (r : Next) (h : s.outside pid addr statSz) :
    ∃ s', (dirnextCopy pid frame addr r).run s = .done (-1) s' := by
  have hout : (s.past pid r.count).outside pid addr statSz := h
  have hrun := run_copyout2_out addr (estat (Next.fill r frame.de) frame.dev frame.st) hout
  refine ⟨{ s.past pid r.count with phase := Function.update (s.past pid r.count).phase pid .idle }, ?_⟩
  rw [dirnextCopy, Prog.run_bind_done (run_moveOff _), Prog.run_bind_done (run_setPhase _)]
  show (copyout2 pid addr _ statSz >>= _).run (s.past pid r.count) = _
  rw [Prog.run_bind_done hrun, if_pos (by decide)]
  rfl

end Runs

/-! ### The two calls -/

inductive StatCall
  | fstat
  | readdir

namespace StatCall
variable (fat : Fat) (pid : Nat) (fd : Int) (addr : Nat)

def body (frame : Frame) : StatCall → Sys Int
  | .fstat => sysFstat pid frame fd addr
  | .readdir => sysReaddir fat pid frame fd addr

/-- What the call returns when it has copied a structure out. -/
def success : StatCall → Int
  | .fstat => 0
  | .readdir => 1

/-- The call gets at the file that it is to copy out: the dirent of the file, or the next record of
the directory. -/
def Finds (s : System) : StatCall → Prop
  | .fstat => s.file.type = .entry ∧ ∃ e, s.file.ep = some e ∧ 1 ≤ (s.fs.dirents e).ref ∧ (s.fs.dirents e).lock = none
  | .readdir => s.file.readable = true ∧ ∃ e, s.file.ep = some e ∧ (s.fs.dirents e).attr &&& attrDirectory ≠ 0 ∧
      ∃ r s', (dirnextFind fat pid e 0).run s = .done r s' ∧ r.type ≠ -1

/-- The name of that file. -/
def Names (s : System) (name : CString) : StatCall → Prop
  | .fstat => ∃ e, s.file.ep = some e ∧ (s.fs.dirents e).filename = name
  | .readdir => ∃ e r s', s.file.ep = some e ∧ (dirnextFind fat pid e 0).run s = .done r s' ∧ r.name = name

/-- The descriptor is open, the address valid, and there is something to copy out. -/
structure Copies (s : System) (c : StatCall) : Prop where
  isOpen : s.isOpen pid fd = true
  inside : ¬ s.outside pid addr statSz
  finds : c.Finds fat pid s

/-- The same bytes are copied out whatever was on the stack, and the name among them is a
terminated prefix of the file's. Of `readdir` only the calls that succeed count. -/
structure Meets (s : System) (c : StatCall) : Prop where
  same : ∀ frame frame' r r' s₁ s₂, (c.body fat pid fd addr frame).run s = .done r s₁ →
    (c.body fat pid fd addr frame').run s = .done r' s₂ → (c = .readdir → r = 1 ∧ r' = 1) → s₁.user = s₂.user
  name : ∀ frame s₁, (c.body fat pid fd addr frame).run s = .done c.success s₁ → ∃ name t, c.Names fat pid s name ∧
    t <+: name ∧ t.length ≤ statMaxName ∧ StringAt (s₁.user pid) addr t

variable {fat pid fd addr} {s s₁ : System} {frame : Frame} {r : Int}

/-- A call that copies nothing out does not say that it has. -/
theorem fstat_done (h : (body fat pid fd addr frame .fstat).run s = .done r s₁)
    (hno : ¬ Copies fat pid fd addr s .fstat) : Kept s s₁ ∧ r ≠ 0 := by
  rw [body, sysFstat, Prog.run_bind_done run_argfd] at h
  split_ifs at h with hopen
  · by_cases htype : s.file.type = .entry
    · cases hep : s.file.ep with
      | none =>
        rw [filestat, Prog.run_bind_done run_file, if_pos htype, hep] at h
        cases h
      | some e =>
        have hlocked : 1 ≤ (s.fs.dirents e).ref ∧ (s.fs.dirents e).lock = none := by
          rw [filestat, Prog.run_bind_done run_file, if_pos htype, hep] at h
          change (onFs (elock pid (some e)) >>= _).run s = _ at h
          rw [Prog.run_bind, run_onFs, run_elock] at h
          split_ifs at h with href hlock
          · cases h
          · exact ⟨by omega, hlock⟩
          · cases h
        obtain ⟨fs, hrun⟩ := run_filestat addr frame htype hep hlocked.1 hlocked.2
        have hout : (s.setFs fs).outside pid addr statSz := by
          by_contra hin
          exact hno ⟨hopen, hin, htype, e, hep, hlocked⟩
        rw [hrun, Prog.run_bind_done (run_copyout2_out _ _ hout), if_pos (by decide)] at h
        cases h
        exact ⟨⟨rfl, rfl, rfl, rfl⟩, by decide⟩
    · rw [filestat, Prog.run_bind_done run_file, if_neg htype] at h
      cases h
      exact ⟨.refl s, by decide⟩
  · cases h
    exact ⟨.refl s, by decide⟩

theorem readdir_done (h : (body fat pid fd addr frame .readdir).run s = .done r s₁)
    (hno : ¬ Copies fat pid fd addr s .readdir) : r ≠ 1 := by
  rw [body, sysReaddir, Prog.run_bind_done run_argfd] at h
  split_ifs at h with hopen
  · rw [dirnext, Prog.run_bind_done run_file] at h
    split_ifs at h with hreadable
    · cases h
      decide
    · cases hep : s.file.ep with
      | none =>
        rw [hep] at h
        cases h
      | some e =>
        rw [hep] at h
        change (onFs (dirent e) >>= _).run s = _ at h
        rw [Prog.run_bind_done run_onFs_dirent] at h
        split_ifs at h with hdir
        · cases h
          decide
        · change (dirnextFind fat pid e frame.de.valid >>= _).run s = _ at h
          cases hfind : (dirnextFind fat pid e frame.de.valid).run s with
          | stopped why =>
            rw [Prog.run_bind, hfind] at h
            cases h
          | blocked =>
            rw [Prog.run_bind, hfind] at h
            cases h
          | done x s' =>
            have hkept := (within_dirnextFind fat pid e frame.de.valid).run_done Kept.refl Kept.trans hfind
            rw [Prog.run_bind_done hfind] at h
            split_ifs at h with htype
            · cases h
              decide
            · have hvalid := dirnextFind_valid hfind hdir
              rw [hvalid] at hfind
              have hout : s.outside pid addr statSz := by
                by_contra hin
                exact hno ⟨hopen, hin, by simpa using hreadable, e, hep, hdir, x, s', hfind, htype⟩
              obtain ⟨s'', hcopy⟩ := run_dirnextCopy_out addr frame x ((hkept.outside ..).mpr hout)
              rw [hcopy] at h
              cases h
              decide
  · cases h
    decide

/-- A call that copies something out shows what was in the padding. -/
theorem body_copies {c : StatCall} (h : Copies fat pid fd addr s c) (frame : Frame) (hvalid : frame.de.valid = 0) :
    ∃ d dev s₁, (c.body fat pid fd addr frame).run s = .done c.success s₁ ∧
      s₁.user = Function.update s.user pid (overwrite addr statSz (estat d dev frame.st) (s.user pid)) := by
  cases c with
  | fstat =>
    obtain ⟨hopen, hin, htype, e, hep, href, hlock⟩ := h
    obtain ⟨fs, hrun⟩ := run_filestat addr frame htype hep href hlock
    refine ⟨s.fs.dirents e, 0, (s.setFs fs).copied pid addr (estat (s.fs.dirents e) 0 frame.st) statSz, ?_, rfl⟩
    rw [body, sysFstat, Prog.run_bind_done run_argfd, if_pos hopen, hrun,
      Prog.run_bind_done (run_copyout2_in (s := s.setFs fs) _ _ hin), if_neg (by decide)]
    rfl
  | readdir =>
    obtain ⟨hopen, hin, hreadable, e, hep, hdir, x, s', hfind, htype⟩ := h
    have hkept := (within_dirnextFind fat pid e 0).run_done Kept.refl Kept.trans hfind
    obtain ⟨s₁, hcopy, huser⟩ := run_dirnextCopy_in addr frame x (mt (hkept.outside ..).mp hin)
    refine ⟨Next.fill x frame.de, frame.dev, s₁, ?_, ?_⟩
    · rw [body, sysReaddir, Prog.run_bind_done run_argfd, if_pos hopen, dirnext, Prog.run_bind_done run_file,
        if_neg (by simp [hreadable]), hep]
      show (onFs (dirent e) >>= _).run s = _
      rw [Prog.run_bind_done run_onFs_dirent, if_neg hdir, hvalid,
        Prog.run_bind_done hfind, if_neg htype]
      exact hcopy
    · rw [huser, hkept.user]

end StatCall

/-- The stack with every byte of `st` set to `b`. -/
def Frame.filled (b : Byte) : Frame := ⟨fun _ => b, Dirent.zero, 0⟩

/-- A call that copies something out copies what was on the stack. -/
theorem StatCall.Copies.leaks {fat : Fat} {pid addr : Nat} {fd : Int} {s : System} {c : StatCall}
    (h : c.Copies fat pid fd addr s) : ¬ c.Meets fat pid fd addr s := by
  intro hm
  obtain ⟨d, dev, s₁, hrun, huser⟩ := StatCall.body_copies h (.filled 0) rfl
  obtain ⟨d', dev', s₂, hrun', huser'⟩ := StatCall.body_copies h (.filled 1) rfl
  have hsame : s₁.user pid (addr + 33) = s₂.user pid (addr + 33) := by
    rw [hm.same _ _ _ _ s₁ s₂ hrun hrun' fun hc => by subst hc; exact ⟨rfl, rfl⟩]
  have hpad : Untouched 33 := .inl ⟨by decide, by decide⟩
  have hbyte : ∀ (d : Dirent) (dev b : Byte) (s' : System), s'.user = Function.update s.user pid
      (overwrite addr statSz (estat d dev (Frame.filled b).st) (s.user pid)) → s'.user pid (addr + 33) = b := by
    intro d dev b s' hs
    rw [hs, Function.update_self, overwrite_in _ _ (by omega) (by unfold statSz; omega), Nat.add_sub_cancel_left,
      estat_untouched d dev _ hpad]
    rfl
  rw [hbyte d dev 0 s₁ huser, hbyte d' dev' 1 s₂ huser'] at hsame
  exact absurd hsame (by decide)

/-- **Only a call that copies nothing out meets its purpose.** -/
theorem statMeets_iff (fat : Fat) (pid : Nat) (fd : Int) (addr : Nat) (s : System) (c : StatCall) :
    c.Meets fat pid fd addr s ↔ ¬ c.Copies fat pid fd addr s := by
  refine ⟨fun hm hc => hc.leaks hm, fun hno => ?_⟩
  cases c with
  | fstat =>
    refine ⟨fun frame frame' r r' s₁ s₂ h h' _ => ?_, fun frame s₁ h => absurd rfl (StatCall.fstat_done h hno).2⟩
    rw [(StatCall.fstat_done h hno).1.user, (StatCall.fstat_done h' hno).1.user]
  | readdir =>
    exact ⟨fun frame frame' r r' s₁ s₂ h _ hc => absurd (hc rfl).1 (StatCall.readdir_done h hno),
      fun frame s₁ h => absurd rfl (StatCall.readdir_done h hno)⟩

/-- A process with 4096 bytes of memory and a file of one letter, open on descriptor 0. -/
def oneFile : System where
  fs := ⟨fun _ _ => 0, fun _ => { Dirent.zero with filename := [0x61], valid := 1, ref := 1 }, [], []⟩
  file := ⟨.entry, true, some (.entry 0), 0⟩
  ofile _ fd := fd = 0
  sz _ := 4096
  user _ _ := 0
  phase _ := .idle
  returned := []
  ended := false

/-- `fstat` of a file with a name of one letter. -/
theorem not_statMeets : ¬ StatCall.fstat.Meets oneClus 1 0 0 oneFile := by
  have hcopies : StatCall.fstat.Copies oneClus 1 0 0 oneFile :=
    ⟨by decide, by decide, rfl, .entry 0, rfl, by decide, rfl⟩
  exact hcopies.leaks

end Farron.Stat
