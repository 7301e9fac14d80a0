import Farron.Fat.Chain

/-! The cursor of an entry, over many calls of `reloc_clus`.

What a call does depends on the chain and the offset alone, not on where the calls before have
left the cursor (`Reloc`): each one finds the cursor somewhere on the chain and leaves it
somewhere on the chain (`run_relocClus`), so a sequence of calls is a walk (`relocAll_walk`). -/
namespace Farron
open Resumption
variable {fat : Fat} {e : Ptr}

/-- One call of `reloc_clus` after the other: offsets and `alloc` flags. -/
def relocAll (fat : Fat) (e : Ptr) : List (Nat × Bool) → Fs (List Int)
  | [] => return []
  | (off, alloc) :: calls => do
    let r ← relocClus fat e off alloc
    let rs ← relocAll fat e calls
    return r :: rs

/-- What a call is to do to an entry with the chain `l`; `l'` is the chain that it leaves. -/
inductive Reloc (fat : Fat) (e : Ptr) (off : Nat) : Bool → List Nat → State → Int → List Nat → State → Prop
  /-- The chain has the offset's cluster: the cursor goes there. -/
  | found (alloc : Bool) (l : List Nat) (s : State) (c : Nat) : l[off / fat.bytsPerClus]? = some c →
      Reloc fat e off alloc l s (off % fat.bytsPerClus : Nat) l (s.setCursor e c (off / fat.bytsPerClus))
  /-- It has not: the cursor goes back to the first cluster. -/
  | failed (l : List Nat) (s : State) (c : Nat) : l.length ≤ off / fat.bytsPerClus → l[0]? = some c →
      Reloc fat e off false l s (-1) l (s.setCursor e c 0)
  /-- The clusters that are missing are put at the end of the chain, and the cursor is on the last one. -/
  | grown (l : List Nat) (s : State) (l' : List Nat) (disk' : Disk) (c : Nat) : l.length ≤ off / fat.bytsPerClus →
      Grown fat l l' s.disk disk' → l'.length = off / fat.bytsPerClus + 1 → l'[off / fat.bytsPerClus]? = some c →
      Reloc fat e off true l s (off % fat.bytsPerClus : Nat) l'
        ({ s with disk := disk' }.setCursor e c (off / fat.bytsPerClus))

/-- What the calls are to do, one after the other. -/
inductive Walk (fat : Fat) (e : Ptr) : List Nat → State → List (Nat × Bool) → List Int → List Nat → State → Prop
  | done (l : List Nat) (s : State) : Walk fat e l s [] [] l s
  | call (off : Nat) (alloc : Bool) {l l₁ l' : List Nat} {s s₁ s' : State} {calls : List (Nat × Bool)} {r : Int}
      {rs : List Int} : Reloc fat e off alloc l s r l₁ s₁ → Walk fat e l₁ s₁ calls rs l' s' →
      Walk fat e l s ((off, alloc) :: calls) (r :: rs) l' s'

/-- The clusters of `e` are `l`, its cursor is on one of them, and the end of the chain can be told. -/
structure OnChain (fat : Fat) (e : Ptr) (l : List Nat) (s : State) : Prop where
  nonempty : l ≠ []
  chain : Chain fat s.disk l
  holds : Holds (s.dirents e) l
  ends : EndsRead fat s.disk l

theorem OnChain.setCursor {l l' : List Nat} {s : State} {disk' : Disk} {c k : Nat} (h : OnChain fat e l s)
    (hchain : Chain fat disk' l') (hfirst : l'.headD 0 = l.headD 0) (hends : EndsRead fat disk' l')
    (hk : l'[k]? = some c) : OnChain fat e l' ({ s with disk := disk' }.setCursor e c k) where
  nonempty := by
    rintro rfl
    simp at hk
  chain := hchain
  holds := ⟨by rw [State.setCursor_same]; exact h.holds.first.trans hfirst.symm, fun _ => by simpa using hk⟩
  ends := hends

section Calls
variable (w : fat.Wf)
include w

/-- **One call**, wherever on the chain the cursor is. -/
theorem run_relocClus {off : Nat} (hoff : off < 2 ^ 32) (alloc : Bool) {l : List Nat} {s : State}
    (h : OnChain fat e l s) (hsteps : (relocClus fat e off alloc).Steps (Allocs fat) s) :
    ∃ r l' s', (relocClus fat e off alloc).run s = .done r s' ∧ Reloc fat e off alloc l s r l' s' ∧
      OnChain fat e l' s' := by
  by_cases hin : off / fat.bytsPerClus < l.length
  · have hk := List.getElem?_eq_getElem hin
    exact ⟨_, l, _, run_relocClus_within w hoff hk alloc s h.chain h.holds, .found alloc l s _ hk,
      h.setCursor h.chain rfl h.ends hk⟩
  · cases alloc with
    | false =>
      have hlen : l.length * fat.bytsPerClus ≤ off := by
        have := Nat.div_mul_le_self off fat.bytsPerClus
        have := Nat.mul_le_mul_right fat.bytsPerClus (Nat.le_of_not_lt hin)
        omega
      obtain ⟨c, hc, hrun⟩ := run_relocClus_behind w hoff hlen h.nonempty s h.chain h.holds h.ends
      exact ⟨-1, l, _, hrun, .failed l s c (Nat.le_of_not_lt hin) hc, h.setCursor h.chain rfl h.ends hc⟩
    | true =>
      obtain ⟨l', disk', c, hrun, hg, hends, hc, hlen⟩ :=
        run_relocClus_grow w hoff s h.nonempty h.chain h.holds (fun _ => h.ends) hsteps
      have hfirst : l'.headD 0 = l.headD 0 := by
        obtain ⟨new, rfl, -⟩ := hg.extends'
        obtain ⟨c₀, rest, rfl⟩ := List.exists_cons_of_ne_nil h.nonempty
        rfl
      exact ⟨_, l', _, hrun, .grown l s l' disk' c (Nat.le_of_not_lt hin) hg (by omega) hc,
        h.setCursor hg.chain hfirst (hends h.ends) hc⟩

/-- **Whatever calls came before, the cursor is where a walk from the start would put it**, and no
call panics. -/
theorem relocAll_walk (calls : List (Nat × Bool)) (hoff : ∀ call ∈ calls, call.1 < 2 ^ 32) {l : List Nat} {s : State}
    (hne : l ≠ []) (hchain : Chain fat s.disk l) (hholds : Holds (s.dirents e) l)
    (hvalues : ∀ c ∈ l, fatEntry fat s.disk c < 2 ^ 28) (hsteps : (relocAll fat e calls).Steps (Allocs fat) s) :
    ∃ rs l' s', (relocAll fat e calls).run s = .done rs s' ∧ Walk fat e l s calls rs l' s' := by
  have hends : EndsRead fat s.disk l := fun c hc => (hvalues c (List.mem_of_getLast? hc)).trans (by decide)
  have h : OnChain fat e l s := ⟨hne, hchain, hholds, hends⟩
  clear hne hchain hholds hvalues hends
  induction calls generalizing l s with
  | nil => exact ⟨[], l, s, rfl, .done l s⟩
  | cons call calls ih =>
    obtain ⟨off, alloc⟩ := call
    have hoff₀ : off < 2 ^ 32 := hoff (off, alloc) List.mem_cons_self
    obtain ⟨r, l₁, s₁, hrun, hreloc, h₁⟩ := run_relocClus w hoff₀ alloc h (Prog.steps_bind_left hsteps)
    rw [relocAll] at hsteps
    replace hsteps := Prog.steps_bind_done hsteps hrun
    have hrest := Prog.steps_bind_left hsteps
    obtain ⟨rs, l', s', hruns, hwalk⟩ := ih (fun c hc => hoff c (List.mem_cons_of_mem _ hc)) hrest h₁
    refine ⟨r :: rs, l', s', ?_, .call off alloc hreloc hwalk⟩
    rw [relocAll, Prog.run_bind_done hrun, Prog.run_bind_done hruns]
    rfl

end Calls

/-! A volume of two data clusters, one of them a file. -/

def twoClus : Fat := ⟨⟨512, 1, 1, 1, 4, 1, 2⟩, 2, 2, 2, 512⟩

def twoClusState : State where
  disk sec o := if sec = 1 ∧ o < 12 then if o % 4 = 3 then 0x0f else 0xff else 0
  dirents _ := { Dirent.zero with firstClus := 2, curClus := 2, valid := 1, ref := 1 }
  lru := []

theorem chain_twoClus : Chain twoClus twoClusState.disk [2] := by
  refine ⟨.single (by decide), fun c hc => ?_, List.nodup_singleton 2⟩
  obtain rfl : c = 2 := by simpa using hc
  decide

/-- A cluster is appended, then the cursor goes back, then behind the end. -/
theorem relocAll_walk_twoClus : ∃ rs l' s',
    (relocAll twoClus .root [(512, true), (0, false), (1024, false)]).run twoClusState = .done rs s' ∧
      Walk twoClus .root [2] twoClusState [(512, true), (0, false), (1024, false)] rs l' s' :=
  relocAll_walk (by constructor <;> decide) _ (by decide) (by decide) chain_twoClus ⟨rfl, fun _ => rfl⟩ (by decide)
    (by decide)

end Farron
