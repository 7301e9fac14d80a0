import Farron.File.Stat

/-! The path of the current directory.

`sys_getcwd` goes from the current directory up to the root and writes the names into a local
buffer from its end on, each in front of the one before. The pointer into the buffer is an
offset, negative in front of it; a store outside the buffer is a fault. -/
namespace Farron.Cwd
open Resumption Strings Stat

/-- `strncpy` of a name into the buffer. -/
def putName (path : Bytes) (s : Int) (name : CString) (len : Nat) : Sys Bytes :=
  if 0 ≤ s ∧ s + len ≤ fat32MaxPath then return strncpy (fun o => name.getD o 0) len s.toNat 0 path
  else .stop (.fault "sys_getcwd: path")

def putChar (path : Bytes) (s : Int) (c : Byte) : Sys Bytes :=
  if 0 ≤ s ∧ s < fat32MaxPath then return Function.update path s.toNat c else .stop (.fault "sys_getcwd: path")

/-- The loop over the parents; `none` if the root is out of reach. -/
def getcwdLoop : Nat → Ptr → Bytes → Int → Sys (Option (Bytes × Int))
  | 0, _, _, _ => .stop .spin
  | n + 1, de, path, s => do
    let d ← onFs (dirent de)
    match d.parent with
    | none => return some (path, s)
    | some parent =>
      let len := d.filename.length
      let s := s - len
      if s ≤ 0 then return none
      else do
        let path ← putName path s d.filename len
        let path ← putChar path (s - 1) charSlash
        getcwdLoop n parent path (s - 1)

/-- The string `s`, copied out. -/
def getcwdCopy (pid addr : Nat) (s : Bytes) : Sys Int := do
  let r ← copyout2 pid addr s (strlen s fat32MaxPath 0 + 1)
  if r < 0 then return -1 else return 0

/-- `cwd` is that of the process; `path` is what the buffer has in it at first. -/
def sysGetcwd (pid : Nat) (cwd : Ptr) (path : Bytes) (addr : Nat) : Sys Int := do
  let d ← onFs (dirent cwd)
  match d.parent with
  | none => getcwdCopy pid addr fun o => [charSlash].getD o 0
  | some _ => do
    let path ← putChar path (fat32MaxPath - 1) 0
    match ← getcwdLoop (fat32MaxPath + 1) cwd path (fat32MaxPath - 1) with
    | none => return -1
    | some (path, s) => getcwdCopy pid addr fun o => path (s.toNat + o)

/-! ### The path -/

/-- The names from the root down to `de`. -/
inductive Below (dirents : Ptr → Dirent) : Ptr → List CString → Prop
  | root (de : Ptr) : (dirents de).parent = none → Below dirents de []
  | step (de parent : Ptr) (names : List CString) : (dirents de).parent = some parent →
      Below dirents parent names → Below dirents de (names ++ [(dirents de).filename])

/-- The names, each with a slash in front of it. -/
def spell (names : List CString) : CString := names.flatMap fun name => charSlash :: name

/-- The path of the directory below these names. -/
def pathOf (names : List CString) : CString := if names = [] then [charSlash] else spell names

@[simp] theorem spell_nil : spell [] = [] := rfl

@[simp] theorem spell_concat (names : List CString) (name : CString) :
    spell (names ++ [name]) = spell names ++ charSlash :: name := by
  simp [spell]

section Run
variable {s : System} {de : Ptr} {names : List CString}

/-- A name and its slash go in front of what is in the buffer already. -/
theorem stringAt_put {path : Bytes} {o : Nat} {name t : CString} (h : StringAt path (o + name.length) t)
    (hname : ∀ c ∈ name, c ≠ 0) (ho : 1 ≤ o) :
    StringAt (Function.update (strncpy (fun i => name.getD i 0) name.length o 0 path) (o - 1) charSlash) (o - 1)
      (charSlash :: name ++ t) := by
  have hget : ∀ i c, name[i]? = some c → name.getD i 0 = c := fun i c hc => by simp [hc]
  have hin : ∀ i c, name[i]? = some c → strncpy (fun i => name.getD i 0) name.length o 0 path (o + i) = c := by
    intro i c hc
    have hi := (List.getElem?_eq_some_iff.mp hc).1
    rw [strncpy_in _ hi fun j hj => ?_, Nat.zero_add, hget i c hc]
    rw [Nat.zero_add, hget j name[j] (List.getElem?_eq_getElem (by omega))]
    exact hname _ (List.getElem_mem _)
  refine StringAt.append (fun i c hc => ?_) (fun c hc => ?_) ?_
  · cases i with
    | zero =>
      obtain rfl : charSlash = c := by simpa using hc
      exact Function.update_self ..
    | succ i =>
      rw [show o - 1 + (i + 1) = o + i by omega, Function.update_of_ne (by omega)]
      exact hin i c (by simpa using hc)
  · rcases List.mem_cons.mp hc with rfl | hc
    · decide
    · exact hname c hc
  · rw [List.length_cons, show o - 1 + (name.length + 1) = o + name.length by omega]
    refine h.congr fun i _ => ?_
    rw [Function.update_of_ne (by omega), strncpy_out _ (.inr (by omega))]

theorem run_putName (path : Bytes) {o : Nat} {name : CString} (h : o + name.length ≤ fat32MaxPath) :
    (putName path o name name.length).run s = .done (strncpy (fun i => name.getD i 0) name.length o 0 path) s := by
  rw [putName, if_pos (by omega)]
  rfl

theorem run_putChar (path : Bytes) {o : Nat} (c : Byte) (h : o < fat32MaxPath) :
    (putChar path o c).run s = .done (Function.update path o c) s := by
  rw [putChar, if_pos (by omega)]
  rfl

/-- The loop, with `t` in the buffer behind what it is still to write. -/
theorem run_getcwdLoop (hbelow : Below s.fs.dirents de names) (hnul : ∀ name ∈ names, ∀ c ∈ name, c ≠ 0) (n : Nat)
    (path : Bytes) (o : Nat) (t : CString) (ho : o < fat32MaxPath) (hn : o < n) (hat : StringAt path o t) :
    if (spell names).length ≤ o then ∃ path', (getcwdLoop n de path o).run s =
        .done (some (path', (o - (spell names).length : Nat))) s ∧
      StringAt path' (o - (spell names).length) (spell names ++ t)
    else (getcwdLoop n de path o).run s = .done none s := by
  induction hbelow generalizing n path o t with
  | root de hroot =>
    obtain ⟨n, rfl⟩ : ∃ m, n = m + 1 := ⟨n - 1, by omega⟩
    rw [spell_nil, List.length_nil, if_pos (Nat.zero_le _)]
    refine ⟨path, ?_, hat⟩
    rw [getcwdLoop, Prog.run_bind_done run_onFs_dirent, hroot]
    rfl
  | step de parent names hparent hbelow ih =>
    obtain ⟨n, rfl⟩ : ∃ m, n = m + 1 := ⟨n - 1, by omega⟩
    have hlen : (spell (names ++ [(s.fs.dirents de).filename])).length =
        (spell names).length + ((s.fs.dirents de).filename.length + 1) := by
      rw [spell_concat, List.length_append, List.length_cons]
    have hname := hnul (s.fs.dirents de).filename (by simp)
    have hstep : (getcwdLoop (n + 1) de path o).run s = (if (o : Int) - (s.fs.dirents de).filename.length ≤ 0 then return none
        else do
          let path ← putName path (o - (s.fs.dirents de).filename.length) (s.fs.dirents de).filename
            (s.fs.dirents de).filename.length
          let path ← putChar path (o - (s.fs.dirents de).filename.length - 1) charSlash
          getcwdLoop n parent path (o - (s.fs.dirents de).filename.length - 1)).run s := by
      rw [getcwdLoop, Prog.run_bind_done run_onFs_dirent, hparent]
    rw [hstep, hlen]
    by_cases hfit : (s.fs.dirents de).filename.length < o
    · obtain ⟨o, rfl⟩ : ∃ o', o = o' + 1 + (s.fs.dirents de).filename.length :=
        ⟨o - (s.fs.dirents de).filename.length - 1, by omega⟩
      have hput := stringAt_put hat hname (by omega)
      rw [Nat.add_sub_cancel] at hput
      have hrest := ih (fun name hm => hnul name (by simp [hm])) n _ o _ (by omega) (by omega) hput
      have hs : ((o + 1 + (s.fs.dirents de).filename.length : Nat) : Int) - (s.fs.dirents de).filename.length =
          (o + 1 : Nat) := by omega
      have hback : ((o + 1 : Nat) : Int) - 1 = o := by omega
      have hback' : o + 1 + (s.fs.dirents de).filename.length -
          ((spell names).length + ((s.fs.dirents de).filename.length + 1)) = o - (spell names).length := by omega
      rw [hs, hback, hback', if_neg (c := ((o + 1 : Nat) : Int) ≤ 0) (by omega),
        Prog.run_bind_done (run_putName _ (by omega)), Prog.run_bind_done (run_putChar _ _ (by omega))]
      by_cases hin : (spell names).length ≤ o
      · rw [if_pos hin] at hrest
        rw [if_pos (by omega), spell_concat, List.append_assoc]
        exact hrest
      · rw [if_neg hin] at hrest
        rw [if_neg (by omega)]
        exact hrest
    · rw [if_neg (by omega), if_pos (by omega)]
      rfl

theorem run_getcwdCopy {pid addr : Nat} {src : Bytes} {t : CString} (h : StringAt src 0 t) (ht : t.length < fat32MaxPath) :
    (getcwdCopy pid addr src).run s = if s.outside pid addr (t.length + 1) then .done (-1) s
      else .done 0 (s.copied pid addr src (t.length + 1)) := by
  rw [getcwdCopy, h.strlen_eq ht.le]
  split_ifs with hout
  · rw [Prog.run_bind, copyout2, Prog.run_act_some, if_pos hout, if_pos hout]
    rfl
  · rw [Prog.run_bind, copyout2, Prog.run_act_some, if_neg hout, if_neg hout]
    rfl

end Run

/-- What `sys_getcwd` is to do for the directory below `names`. -/
structure Getcwd (pid : Nat) (cwd : Ptr) (path : Bytes) (addr : Nat) (names : List CString) (s : System) : Prop where
  /-- A path that fits is copied out with its NUL, and nothing else is written. -/
  fits : (pathOf names).length ≤ fat32MaxPath - 1 → ¬ s.outside pid addr ((pathOf names).length + 1) →
    ∃ s', (sysGetcwd pid cwd path addr).run s = .done 0 s' ∧ StringAt (s'.user pid) addr (pathOf names) ∧
      (∀ a, a < addr ∨ addr + (pathOf names).length < a → s'.user pid a = s.user pid a) ∧
      s' = { s with user := Function.update s.user pid (s'.user pid) }
  long : fat32MaxPath - 1 < (pathOf names).length → (sysGetcwd pid cwd path addr).run s = .done (-1) s
  invalid : s.outside pid addr ((pathOf names).length + 1) → (sysGetcwd pid cwd path addr).run s = .done (-1) s

theorem copied_string {pid addr : Nat} {src : Bytes} {t : CString} (s : System) (h : StringAt src 0 t) :
    StringAt ((s.copied pid addr src (t.length + 1)).user pid) addr t := by
  have hin : ∀ i, i ≤ t.length → (s.copied pid addr src (t.length + 1)).user pid (addr + i) = src i := by
    intro i hi
    rw [System.copied_user, overwrite_in _ _ (by omega) (by omega), Nat.add_sub_cancel_left]
  refine ⟨fun i c hc => ?_, ?_, h.nonzero⟩
  · rw [hin i (List.getElem?_eq_some_iff.mp hc).1.le]
    simpa using h.chars i c hc
  · rw [hin _ (le_refl _)]
    simpa using h.nul

/-- A string that is copied out, if it fits. -/
theorem getcwd_of_copy {pid addr : Nat} {cwd : Ptr} {path : Bytes} (src : Bytes) {names : List CString} {s : System}
    (hrun : (sysGetcwd pid cwd path addr).run s = (getcwdCopy pid addr src).run s) (h : StringAt src 0 (pathOf names))
    (hlen : (pathOf names).length ≤ fat32MaxPath - 1) : Getcwd pid cwd path addr names s := by
  have hlt : (pathOf names).length < fat32MaxPath := by
    unfold fat32MaxPath at hlen ⊢
    omega
  rw [run_getcwdCopy h hlt] at hrun
  refine ⟨fun _ hin => ?_, fun hlong => absurd hlen (by omega), fun hout => by rw [hrun, if_pos hout]⟩
  rw [if_neg hin] at hrun
  refine ⟨_, hrun, copied_string s h, fun a ha => ?_, ?_⟩
  · rw [System.copied_user, overwrite_out _ _ (by omega)]
  · rw [System.copied_user]
    rfl

/-- **`sys_getcwd` writes the path of the current directory, or fails when it is too long.** -/
theorem getcwd_path (pid : Nat) (cwd : Ptr) (path : Bytes) (addr : Nat) {names : List CString} {s : System}
    (hbelow : Below s.fs.dirents cwd names) (hnul : ∀ name ∈ names, ∀ c ∈ name, c ≠ 0) :
    Getcwd pid cwd path addr names s := by
  cases hparent : (s.fs.dirents cwd).parent with
  | none =>
    obtain rfl : names = [] := by
      cases hbelow with
      | root => rfl
      | step _ _ _ hp =>
        rw [hparent] at hp
        cases hp
    refine getcwd_of_copy (fun o => [charSlash].getD o 0) ?_ ?_ (by decide)
    · rw [sysGetcwd, Prog.run_bind_done run_onFs_dirent, hparent]
    · refine ⟨fun i c hc => ?_, rfl, by simp [pathOf, charSlash]⟩
      rw [Nat.zero_add]
      simp only [List.getD]
      rw [show ([charSlash] : CString)[i]? = some c from hc]
      rfl
  | some parent =>
    have hpath : pathOf names = spell names := by
      cases hbelow with
      | root _ hp =>
        rw [hparent] at hp
        cases hp
      | step => simp [pathOf]
    have hat : StringAt (Function.update path 259 0) 259 [] := .empty (Function.update_self ..)
    have hloop := run_getcwdLoop hbelow hnul (fat32MaxPath + 1) _ 259 [] (by decide) (by decide) hat
    have hrun : (sysGetcwd pid cwd path addr).run s =
        (getcwdLoop (fat32MaxPath + 1) cwd (Function.update path 259 0) (259 : Nat) >>= fun r =>
          match r with
          | none => return -1
          | some (path, s) => getcwdCopy pid addr fun o => path (s.toNat + o)).run s := by
      rw [sysGetcwd, Prog.run_bind_done run_onFs_dirent, hparent]
      rfl
    by_cases hlen : (spell names).length ≤ 259
    · rw [if_pos hlen] at hloop
      obtain ⟨path', hdone, hstr⟩ := hloop
      rw [Prog.run_bind_done hdone] at hrun
      rw [List.append_nil] at hstr
      refine getcwd_of_copy _ hrun ?_ (by rw [hpath]; exact hlen)
      rw [hpath]
      exact ⟨fun i c hc => by rw [Nat.zero_add]; exact hstr.chars i c hc, by rw [Nat.zero_add]; exact hstr.nul, hstr.nonzero⟩
    · rw [if_neg hlen] at hloop
      rw [Prog.run_bind_done hloop] at hrun
      refine ⟨fun hfits => ?_, fun _ => hrun, fun _ => hrun⟩
      rw [hpath] at hfits
      exact absurd hfits hlen

/-- A process with 4096 bytes of memory; every cached entry is called `a` and stands in the root. -/
def oneDir : System where
  fs := ⟨fun _ _ => 0, fun
      | .root => Dirent.zero
      | .entry _ => { Dirent.zero with filename := [0x61], valid := 1, ref := 1, parent := some .root },
    [], []⟩
  file := ⟨.none, false, none, 0⟩
  ofile _ _ := false
  sz _ := 4096
  user _ _ := 0
  phase _ := .idle
  returned := []
  ended := false

/-- In `/a`. -/
theorem getcwd_path_oneDir : Getcwd 1 (.entry 0) (fun _ => 0) 0 [[0x61]] oneDir :=
  getcwd_path 1 _ _ 0 (.step (.entry 0) .root [] rfl (.root .root rfl)) (by simp)

end Farron.Cwd
