import Farron.Bio.Buffers
import Farron.Resumption.Rely

/-! The buffer cache is coherent.

`BufOk` relates one buffer to the sector it names and to what the processes have of it:
the count is the number of references, a buffer somebody has a reference to keeps its
site, and its data is the disk's unless its holder has changed it. `Coherent` adds that
a site has one buffer. As `binit` gives all buffers the same site, of two buffers with one
site the one further down the list was never used. -/
namespace Farron.Bio
open Resumption
variable {ι : Type} [Fintype ι] [DecidableEq ι]

/-- What the holder of a buffer knows: nothing yet, that its data is the disk's, or nothing
because it has changed it. -/
inductive Grip
  | stale
  | clean
  | dirty
  deriving DecidableEq

/-- What a process has of a buffer: references, the site it got it for, and the lock. -/
structure Hand where
  refs : Nat
  site : Site
  grip : Option Grip

structure BufOk (x : Buf ι) (onDisk : Block) (h : ι → Hand) : Prop where
  count : x.refcnt = ∑ i, (h i).refs
  site : ∀ i, 0 < (h i).refs → x.site = (h i).site
  lock : ∀ i, x.lock = some i ↔ (h i).grip ≠ none
  held : ∀ i, (h i).grip ≠ none → 0 < (h i).refs
  valid : x.valid = true → (∀ i, (h i).grip ≠ some .dirty) → x.data = onDisk
  clean : ∀ i, (h i).grip = some .clean → x.data = onDisk

namespace BufOk
variable {x : Buf ι} {onDisk : Block} {h : ι → Hand}

omit [DecidableEq ι] in
theorem refs_le (hx : BufOk x onDisk h) (i : ι) : (h i).refs ≤ x.refcnt := by
  rw [hx.count]
  exact Finset.single_le_sum (f := fun i => (h i).refs) (fun _ _ => Nat.zero_le _) (Finset.mem_univ i)

omit [DecidableEq ι] in
/-- Nobody has anything of an unused buffer. -/
theorem no_grip (hx : BufOk x onDisk h) (hzero : x.refcnt = 0) (i : ι) : (h i).refs = 0 ∧ (h i).grip = none := by
  have hle := hx.refs_le i
  rw [hzero] at hle
  have hrefs := Nat.le_zero.mp hle
  refine ⟨hrefs, ?_⟩
  by_contra hg
  exact absurd (hx.held i hg) (by rw [hrefs]; exact Nat.lt_irrefl 0)

omit [DecidableEq ι] in
/-- An unused buffer that is not valid may name any sector. -/
theorem aside (hx : BufOk x onDisk h) (hzero : x.refcnt = 0) (hvalid : x.valid = false) (onDisk' : Block) :
    BufOk x onDisk' h := by
  refine ⟨hx.count, hx.site, hx.lock, hx.held, fun hv => ?_, fun i hc => ?_⟩
  · rw [hvalid] at hv
    cases hv
  · rw [(hx.no_grip hzero i).2] at hc
    cases hc

omit [DecidableEq ι] in
/-- The lock has one holder. -/
theorem holder (hx : BufOk x onDisk h) {i j : ι} (hi : (h i).grip ≠ none) (hj : j ≠ i) : (h j).grip = none := by
  by_contra hg
  have h1 := (hx.lock i).mpr hi
  rw [(hx.lock j).mpr hg] at h1
  exact hj (Option.some.inj h1)

/-- Process `i`, with a reference and the only one to have the lock before or after, changes the
buffer. -/
theorem regrip (hx : BufOk x onDisk h) {i : ι} {x' : Buf ι} {onDisk' : Block} {g : Option Grip}
    (href : 0 < (h i).refs) (hother : ∀ j, j ≠ i → (h j).grip = none) (hcount : x'.refcnt = x.refcnt)
    (hsite : x'.site = x.site) (hlock : x'.lock = if g = none then none else some i)
    (hvalid : x'.valid = true → g ≠ some .dirty → x'.data = onDisk') (hclean : g = some .clean → x'.data = onDisk') :
    BufOk x' onDisk' (Function.update h i { h i with grip := g }) := by
  have hrefs : ∀ j, (Function.update h i { h i with grip := g } j).refs = (h j).refs := by
    intro j
    by_cases hj : j = i
    · subst hj
      rw [Function.update_self]
    · rw [Function.update_of_ne hj]
  refine ⟨?_, fun j hj => ?_, fun j => ?_, fun j hj => ?_, fun hv hd => ?_, fun j hc => ?_⟩
  · simp only [hrefs]
    rw [hcount]
    exact hx.count
  · rw [hrefs] at hj
    rw [hsite, hx.site j hj]
    by_cases hji : j = i
    · subst hji
      rw [Function.update_self]
    · rw [Function.update_of_ne hji]
  · rw [hlock]
    by_cases hji : j = i
    · subst hji
      rw [Function.update_self]
      by_cases hg : g = none
      · rw [if_pos hg]
        exact ⟨fun h => (nomatch h), fun h => absurd hg h⟩
      · rw [if_neg hg]
        exact ⟨fun _ => hg, fun _ => rfl⟩
    · rw [Function.update_of_ne hji, hother j hji]
      refine ⟨fun h => ?_, fun h => absurd rfl h⟩
      by_cases hg : g = none
      · rw [if_pos hg] at h
        cases h
      · rw [if_neg hg] at h
        exact absurd (Option.some.inj h).symm hji
  · rw [hrefs]
    by_cases hji : j = i
    · subst hji
      exact href
    · rw [Function.update_of_ne hji, hother j hji] at hj
      exact absurd rfl hj
  · apply hvalid hv
    have := hd i
    rw [Function.update_self] at this
    exact this
  · by_cases hji : j = i
    · subst hji
      rw [Function.update_self] at hc
      exact hclean hc
    · rw [Function.update_of_ne hji, hother j hji] at hc
      cases hc

/-- Process `i` gets or gives up references. -/
theorem recount (hx : BufOk x onDisk h) {i : ι} {n : Nat} {hand : Hand}
    (hn : n + (h i).refs = x.refcnt + hand.refs) (hsite : 0 < hand.refs → x.site = hand.site)
    (hgrip : hand.grip = (h i).grip) (hheld : hand.grip ≠ none → 0 < hand.refs) :
    BufOk { x with refcnt := n } onDisk (Function.update h i hand) := by
  have hsame : ∀ j, (Function.update h i hand j).grip = (h j).grip := by
    intro j
    by_cases hj : j = i
    · subst hj
      rw [Function.update_self, hgrip]
    · rw [Function.update_of_ne hj]
  refine ⟨?_, fun j hj => ?_, fun j => ?_, fun j hj => ?_, fun hv hd => ?_, fun j hc => ?_⟩
  · have := sum_update h i hand Hand.refs
    rw [← hx.count] at this
    show n = _
    omega
  · by_cases hji : j = i
    · subst hji
      rw [Function.update_self] at hj ⊢
      exact hsite hj
    · rw [Function.update_of_ne hji] at hj ⊢
      exact hx.site j hj
  · rw [hsame]
    exact hx.lock j
  · by_cases hji : j = i
    · subst hji
      rw [Function.update_self] at hj ⊢
      exact hheld hj
    · rw [Function.update_of_ne hji] at hj ⊢
      exact hx.held j hj
  · simp only [hsame] at hd
    exact hx.valid hv hd
  · rw [hsame] at hc
    exact hx.clean j hc

/-- An unused buffer is recycled for process `i`. -/
theorem recycle (hx : BufOk x onDisk h) (hzero : x.refcnt = 0) (i : ι) (p : Site) (onDisk' : Block) :
    BufOk { x with site := p, valid := false, refcnt := 1 } onDisk' (Function.update h i ⟨1, p, none⟩) := by
  have hx' : BufOk { x with site := p, valid := false } onDisk' h := by
    refine ⟨hx.count, fun j hj => ?_, hx.lock, hx.held, fun hv => (nomatch hv), fun j hc => ?_⟩
    · rw [(hx.no_grip hzero j).1] at hj
      exact absurd hj (Nat.lt_irrefl 0)
    · rw [(hx.no_grip hzero j).2] at hc
      cases hc
  refine hx'.recount ?_ (fun _ => rfl) (hx.no_grip hzero i).2.symm fun h => absurd rfl h
  rw [(hx.no_grip hzero i).1]
  show 1 + 0 = x.refcnt + 1
  rw [hzero]

end BufOk

/-! ### The whole cache -/

/-- As `binit` left it. -/
def Buf.Untouched (x : Buf ι) : Prop := x.valid = false ∧ x.refcnt = 0 ∧ x.site = noSite

/-- Of two buffers with one site, the one further down is in `F`. -/
def Sorted (s : Bcache ι) (F : Fin nbuf → Prop) : Prop :=
  s.lru.Pairwise fun b c => (s.bufs b).site = (s.bufs c).site → F c

structure Coherent (first : Site → Block) (s : Bcache ι) (T : ι → Fin nbuf → Hand) : Prop where
  buf : ∀ b, BufOk (s.bufs b) (s.disk (s.bufs b).site) fun i => T i b
  all : ∀ b, b ∈ s.lru
  nodup : s.lru.Nodup
  sorted : ∃ F : Fin nbuf → Prop, (∀ b, F b → (s.bufs b).Untouched) ∧ Sorted s F
  disk : ∀ p, s.disk p = latest first s.log p

namespace Coherent
variable {first : Site → Block} {s : Bcache ι} {T : ι → Fin nbuf → Hand}

omit [Fintype ι] [DecidableEq ι] in
theorem either {F : Fin nbuf → Prop} (hsorted : Sorted s F) {b c : Fin nbuf} (hb : b ∈ s.lru) (hc : c ∈ s.lru)
    (hne : b ≠ c) (hsite : (s.bufs b).site = (s.bufs c).site) : F b ∨ F c := by
  have hsym : s.lru.Pairwise fun b c => (s.bufs b).site = (s.bufs c).site → F b ∨ F c :=
    hsorted.imp fun h he => .inr (h he)
  have : Std.Symm fun b c => (s.bufs b).site = (s.bufs c).site → F b ∨ F c :=
    ⟨fun _ _ h he => (h he.symm).symm⟩
  exact hsym.forall hb hc hne hsite

omit [DecidableEq ι] in
/-- Of two buffers with one site, one was never used. -/
theorem unique (h : Coherent first s T) {b c : Fin nbuf} (hne : b ≠ c) (hsite : (s.bufs b).site = (s.bufs c).site) :
    (s.bufs b).Untouched ∨ (s.bufs c).Untouched := by
  obtain ⟨F, hF, hsorted⟩ := h.sorted
  obtain hb | hc := either hsorted (h.all b) (h.all c) hne hsite
  · exact .inl (hF b hb)
  · exact .inr (hF c hc)

omit [DecidableEq ι] in
/-- A site that a buffer in use names is no other's, unless that one was never used. -/
theorem aside (h : Coherent first s T) {b c : Fin nbuf} (hne : c ≠ b) (hused : 0 < (s.bufs b).refcnt)
    (hsite : (s.bufs c).site = (s.bufs b).site) (onDisk : Block) : BufOk (s.bufs c) onDisk fun i => T i c := by
  obtain hc | hb := h.unique hne hsite
  · exact (h.buf c).aside hc.2.1 hc.1 onDisk
  · rw [hb.2.1] at hused
    exact absurd hused (Nat.lt_irrefl 0)

end Coherent

/-! ### Sections -/

section Sections
variable {first : Site → Block} {s : Bcache ι} {T : ι → Fin nbuf → Hand} {i : ι} {b : Fin nbuf}

/-- The tokens after process `i` has got or given up something of buffer `b`. -/
def grab (T : ι → Fin nbuf → Hand) (i : ι) (b : Fin nbuf) (x : Hand) : ι → Fin nbuf → Hand :=
  Function.update T i (Function.update (T i) b x)

omit [Fintype ι] in
theorem grab_same (x : Hand) : (fun j => grab T i b x j b) = Function.update (fun j => T j b) i x := by
  funext j
  by_cases hj : j = i
  · subst hj
    simp only [grab, Function.update_self]
  · simp only [grab, Function.update_of_ne hj]

omit [Fintype ι] in
theorem grab_other {c : Fin nbuf} (hc : c ≠ b) (x : Hand) : (fun j => grab T i b x j c) = fun j => T j c := by
  funext j
  by_cases hj : j = i
  · subst hj
    simp only [grab, Function.update_self, Function.update_of_ne hc]
  · simp only [grab, Function.update_of_ne hj]

/-- A buffer in use changes. -/
theorem Coherent.set (h : Coherent first s T) {x : Buf ι} {hand : Hand} (hused : 0 < (s.bufs b).refcnt)
    (hsite : x.site = (s.bufs b).site) (hok : BufOk x (s.disk x.site) (Function.update (fun j => T j b) i hand)) :
    Coherent first { s with bufs := Function.update s.bufs b x } (grab T i b hand) := by
  have hsites : ∀ c, (Function.update s.bufs b x c).site = (s.bufs c).site := by
    intro c
    by_cases hc : c = b
    · subst hc
      rw [Function.update_self, hsite]
    · rw [Function.update_of_ne hc]
  refine ⟨fun c => ?_, h.all, h.nodup, ?_, h.disk⟩
  · show BufOk (Function.update s.bufs b x c) (s.disk (Function.update s.bufs b x c).site) _
    by_cases hc : c = b
    · subst hc
      rw [Function.update_self, grab_same]
      exact hok
    · rw [Function.update_of_ne hc, grab_other hc]
      exact h.buf c
  · obtain ⟨F, hF, hsorted⟩ := h.sorted
    refine ⟨F, fun c hc => ?_, ?_⟩
    · show (Function.update s.bufs b x c).Untouched
      have hcb : c ≠ b := by
        intro he
        have := (hF c hc).2.1
        rw [he] at this
        rw [this] at hused
        exact Nat.lt_irrefl 0 hused
      rw [Function.update_of_ne hcb]
      exact hF c hc
    · show s.lru.Pairwise fun b' c => (Function.update s.bufs b x b').site = (Function.update s.bufs b x c).site → F c
      simp only [hsites]
      exact hsorted

/-- The holder of a buffer, or who gets its lock, changes it. -/
theorem Coherent.regrip (h : Coherent first s T) {x : Buf ι} {g : Option Grip} (href : 0 < (T i b).refs)
    (hother : ∀ j, j ≠ i → (T j b).grip = none) (hcount : x.refcnt = (s.bufs b).refcnt)
    (hsite : x.site = (s.bufs b).site) (hlock : x.lock = if g = none then none else some i)
    (hvalid : x.valid = true → g ≠ some .dirty → x.data = s.disk (s.bufs b).site)
    (hclean : g = some .clean → x.data = s.disk (s.bufs b).site) :
    Coherent first { s with bufs := Function.update s.bufs b x } (grab T i b { T i b with grip := g }) := by
  have hb := h.buf b
  apply h.set (Nat.lt_of_lt_of_le href (hb.refs_le i)) hsite
  rw [hsite]
  exact hb.regrip href hother hcount hsite hlock hvalid hclean

/-- `disk_write` by the holder of the buffer. -/
theorem Coherent.diskWrite (h : Coherent first s T) (hgrip : (T i b).grip ≠ none) :
    Coherent first (s.diskWrite b) (grab T i b { T i b with grip := some .clean }) := by
  have hb := h.buf b
  have hused : 0 < (s.bufs b).refcnt := Nat.lt_of_lt_of_le (hb.held i hgrip) (hb.refs_le i)
  refine ⟨fun c => ?_, h.all, h.nodup, h.sorted, fun p => ?_⟩
  · show BufOk (s.bufs c) (Function.update s.disk (s.bufs b).site (s.bufs b).data (s.bufs c).site) _
    by_cases hc : c = b
    · subst hc
      rw [Function.update_self, grab_same]
      refine hb.regrip (hb.held i hgrip) (fun j hj => hb.holder hgrip hj) rfl rfl ?_ (fun _ _ => rfl) fun _ => rfl
      rw [if_neg (fun h => nomatch h)]
      exact (hb.lock i).mpr hgrip
    · rw [grab_other hc]
      by_cases hsite : (s.bufs c).site = (s.bufs b).site
      · exact h.aside hc hused hsite _
      · rw [Function.update_of_ne hsite]
        exact h.buf c
  · show Function.update s.disk (s.bufs b).site (s.bufs b).data p = latest first (_ :: s.log) p
    unfold latest
    by_cases hp : p = (s.bufs b).site
    · subst hp
      rw [Function.update_self, List.find?_cons_of_pos (by simp)]
      rfl
    · rw [Function.update_of_ne hp, List.find?_cons_of_neg (by simpa using Ne.symm hp)]
      exact h.disk p

omit [Fintype ι] [DecidableEq ι] in
/-- The buffer found is the first of its site. -/
theorem sorted_cached {F : Fin nbuf → Prop} (hsorted : Sorted s F) (hnodup : s.lru.Nodup) {p : Site}
    (hb : s.cached p = some b) : Sorted s fun c => F c ∧ c ≠ b := by
  obtain ⟨hp, before, after, hlru, hbefore⟩ := List.find?_eq_some_iff_append.mp hb
  have hfirst : s.lru.Pairwise fun c d => (s.bufs c).site = (s.bufs d).site → d ≠ b := by
    rw [hlru] at hnodup ⊢
    obtain ⟨_, h2, h3⟩ := List.pairwise_append.mp hnodup
    have hafter : ∀ d ∈ after, d ≠ b := fun d hd => Ne.symm ((List.pairwise_cons.mp h2).1 d hd)
    refine List.pairwise_append.mpr ⟨?_, List.pairwise_cons.mpr ⟨fun d hd _ => hafter d hd, ?_⟩, fun c hc d hd he => ?_⟩
    · exact List.pairwise_of_forall_mem_list fun c _ d hd _ => h3 d hd b List.mem_cons_self
    · exact List.pairwise_of_forall_mem_list fun c _ d hd _ => hafter d hd
    · obtain rfl | hd := List.mem_cons.mp hd
      · have := hbefore c hc
        rw [he, of_decide_eq_true hp] at this
        simp at this
      · exact hafter d hd
  exact (List.pairwise_and_iff.mpr ⟨hsorted, hfirst⟩).imp fun h he => ⟨h.1 he, h.2 he⟩

/-- `bget` under the lock. -/
theorem Coherent.get (h : Coherent first s T) {p : Site} {s' : Bcache ι} (hget : s.get p = some (b, s')) :
    Coherent first s' (grab T i b ⟨(T i b).refs + 1, p, (T i b).grip⟩) := by
  have hb := h.buf b
  obtain ⟨F, hF, hsorted⟩ := h.sorted
  have huntouched : ∀ {x : Buf ι} (c : Fin nbuf), F c ∧ c ≠ b → (Function.update s.bufs b x c).Untouched := by
    intro x c hc
    rw [Function.update_of_ne hc.2]
    exact hF c hc.1
  unfold Bcache.get at hget
  cases hcached : s.cached p with
  | some c =>
    rw [hcached] at hget
    cases hget
    have hsite : (s.bufs b).site = p := by
      have := List.find?_some hcached
      exact of_decide_eq_true this
    refine ⟨fun c => ?_, h.all, h.nodup, ⟨fun c => F c ∧ c ≠ b, fun c hc => huntouched c hc, ?_⟩, h.disk⟩
    · show BufOk (Function.update s.bufs b _ c) (s.disk (Function.update s.bufs b _ c).site) _
      by_cases hc : c = b
      · subst hc
        rw [Function.update_self, grab_same]
        exact hb.recount (Nat.add_right_comm _ 1 _ ▸ rfl) (fun _ => hsite) rfl fun _ => Nat.succ_pos _
      · rw [Function.update_of_ne hc, grab_other hc]
        exact h.buf c
    · have hsites : ∀ c, (Function.update s.bufs b { s.bufs b with refcnt := (s.bufs b).refcnt + 1 } c).site =
          (s.bufs c).site := by
        intro c
        by_cases hc : c = b
        · subst hc
          rw [Function.update_self]
        · rw [Function.update_of_ne hc]
      unfold Sorted Bcache.setBuf
      simp only [hsites]
      exact sorted_cached hsorted h.nodup hcached
  | none =>
    rw [hcached] at hget
    cases hunused : s.unused with
    | none =>
      rw [hunused] at hget
      cases hget
    | some c =>
      rw [hunused] at hget
      cases hget
      have hzero : (s.bufs b).refcnt = 0 := by
        have := List.find?_some hunused
        exact of_decide_eq_true this
      have hnone : ∀ c ∈ s.lru, (s.bufs c).site ≠ p := by
        intro c hc
        have := List.find?_eq_none.mp hcached c hc
        simpa using this
      refine ⟨fun c => ?_, h.all, h.nodup, ⟨fun c => F c ∧ c ≠ b, fun c hc => huntouched c hc, ?_⟩, h.disk⟩
      · show BufOk (Function.update s.bufs b _ c) (s.disk (Function.update s.bufs b _ c).site) _
        by_cases hc : c = b
        · subst hc
          rw [Function.update_self, grab_same, (hb.no_grip hzero i).1, (hb.no_grip hzero i).2]
          exact hb.recycle hzero i p _
        · rw [Function.update_of_ne hc, grab_other hc]
          exact h.buf c
      · show s.lru.Pairwise fun c d => (Function.update s.bufs b _ c).site = (Function.update s.bufs b _ d).site →
          F d ∧ d ≠ b
        refine (List.pairwise_and_iff.mpr ⟨h.nodup, hsorted⟩).imp_of_mem fun {c d} hc hd hcd he => ?_
        by_cases hcb : c = b
        · subst hcb
          rw [Function.update_self, Function.update_of_ne (Ne.symm hcd.1)] at he
          exact absurd he.symm (hnone d hd)
        · by_cases hdb : d = b
          · subst hdb
            rw [Function.update_self, Function.update_of_ne hcb] at he
            exact absurd he (hnone c hc)
          · rw [Function.update_of_ne hcb, Function.update_of_ne hdb] at he
            exact ⟨hcd.2 he, hdb⟩

/-- `brelse` under the lock, by a process that has released the buffer. -/
theorem Coherent.put (h : Coherent first s T) (hhand : (T i b).refs = 1 ∧ (T i b).grip = none) {x : Hand}
    (hx : x.refs = 0 ∧ x.grip = none) : Coherent first (s.put b) (grab T i b x) := by
  have hb := h.buf b
  have hused : 0 < (s.bufs b).refcnt := by
    have := hb.refs_le i
    rw [hhand.1] at this
    exact this
  have hset : Coherent first { s with bufs := Function.update s.bufs b { s.bufs b with refcnt := (s.bufs b).refcnt - 1 } }
      (grab T i b x) := by
    refine h.set hused rfl (hb.recount ?_ (fun hr => ?_) ?_ fun hg => absurd hx.2 hg)
    · rw [hhand.1, hx.1]
      omega
    · rw [hx.1] at hr
      exact absurd hr (Nat.lt_irrefl 0)
    · rw [hx.2, hhand.2]
  unfold Bcache.put
  by_cases hzero : ((s.setBuf b fun x => { x with refcnt := x.refcnt - 1 }).bufs b).refcnt = 0
  · rw [if_pos hzero]
    refine ⟨hset.buf, fun c => ?_, ?_, ?_, hset.disk⟩
    · by_cases hc : c = b
      · subst hc
        exact List.mem_cons_self
      · exact List.mem_cons_of_mem _ ((List.mem_erase_of_ne hc).mpr (h.all c))
    · exact List.nodup_cons.mpr ⟨h.nodup.not_mem_erase, h.nodup.erase b⟩
    · obtain ⟨F, hF, hsorted⟩ := h.sorted
      have hsites : ∀ c, (Function.update s.bufs b { s.bufs b with refcnt := (s.bufs b).refcnt - 1 } c).site =
          (s.bufs c).site := by
        intro c
        by_cases hc : c = b
        · subst hc
          rw [Function.update_self]
        · rw [Function.update_of_ne hc]
      have hFb : ¬ F b := by
        intro hFb
        rw [(hF b hFb).2.1] at hused
        exact Nat.lt_irrefl 0 hused
      refine ⟨F, fun c hc => ?_, ?_⟩
      · show (Function.update s.bufs b _ c).Untouched
        have hcb : c ≠ b := fun he => hFb (he ▸ hc)
        rw [Function.update_of_ne hcb]
        exact hF c hc
      · show (b :: s.lru.erase b).Pairwise fun c d => (Function.update s.bufs b _ c).site =
          (Function.update s.bufs b _ d).site → F d
        simp only [hsites]
        refine List.pairwise_cons.mpr ⟨fun d hd he => ?_, List.Pairwise.sublist List.erase_sublist hsorted⟩
        have hd' := (h.nodup.mem_erase_iff).mp hd
        obtain hb' | hd'' := Coherent.either hsorted (h.all b) hd'.2 (Ne.symm hd'.1) he
        · exact absurd hb' hFb
        · exact hd''
  · rw [if_neg hzero]
    exact hset

end Sections

end Farron.Bio
