import Farron.Chains.Linked
import Mathlib.Data.Set.Finite.Basic
import Mathlib.Data.Set.Finite.Lattice
import Mathlib.Data.Fintype.EquivFin

/-! A table carved into chains.

Every cell of a table whose value is not the free mark lies on the chain of exactly
one owner (`Partition`). What an allocator does keeps it so: taking a free cell into
an empty chain, linking a chain of one cell behind another, freeing a chain's first
cell, handing a chain over to an owner without one. -/
namespace Chains
variable {α κ : Type} {next next' : α → α} {ends : α → Prop} {free : α} {cell : α → Prop}
  {own : κ → List α}

structure Partition (next : α → α) (ends : α → Prop) (free : α) (cell : α → Prop) (own : κ → List α) :
    Prop where
  linked : ∀ k, Linked next ends (own k)
  cells : ∀ k, ∀ c ∈ own k, cell c
  nodup : ∀ k, (own k).Nodup
  disjoint : ∀ k k', k ≠ k' → ∀ c ∈ own k, c ∉ own k'
  cover : ∀ c, cell c → next c ≠ free → ∃ k, c ∈ own k

namespace Partition

theorem congr (h : Partition next ends free cell own) (hn : ∀ c, cell c → next' c = next c) :
    Partition next' ends free cell own where
  linked k := (h.linked k).congr fun c hc => hn c (h.cells k c hc)
  cells := h.cells
  nodup := h.nodup
  disjoint := h.disjoint
  cover c hc hf := h.cover c hc (by rwa [hn c hc] at hf)

/-- No chain has a free cell, as long as no cell and no end mark looks like the free mark. -/
theorem next_ne_free (h : Partition next ends free cell own) (hcell : ¬ cell free) (hends : ¬ ends free)
    {k : κ} {c : α} (hc : c ∈ own k) : next c ≠ free := by
  obtain ⟨i, hi⟩ := List.getElem?_of_mem hc
  cases hd : (own k)[i + 1]? with
  | none =>
    have he := (h.linked k).last i c hi hd
    exact fun hf => hends (hf ▸ he)
  | some d =>
    rw [(h.linked k).step i c d hi hd]
    exact fun hf => hcell (hf ▸ h.cells k d (List.mem_of_getElem? hd))

variable [DecidableEq κ]

/-- A free cell becomes the chain of an owner without one. -/
theorem alloc (h : Partition next ends free cell own) (hcell : ¬ cell free) (hends : ¬ ends free)
    {k : κ} {c : α} (hk : own k = []) (hc : cell c) (hfree : next c = free) (hend : ends (next' c))
    (hn : ∀ d, cell d → d ≠ c → next' d = next d) :
    Partition next' ends free cell (Function.update own k [c]) := by
  have hnot : ∀ j, c ∉ own j := fun j hm => h.next_ne_free hcell hends hm hfree
  refine ⟨fun j => ?_, fun j d hd => ?_, fun j => ?_, fun j j' hjj d hd => ?_, fun d hd hf => ?_⟩
  · by_cases hj : j = k
    · subst hj
      rw [Function.update_self]
      exact .single hend
    · rw [Function.update_of_ne hj]
      exact (h.linked j).congr fun d hd => hn d (h.cells j d hd) (fun he => hnot j (he ▸ hd))
  · by_cases hj : j = k
    · subst hj
      rw [Function.update_self, List.mem_singleton] at hd
      rw [hd]
      exact hc
    · rw [Function.update_of_ne hj] at hd
      exact h.cells j d hd
  · by_cases hj : j = k
    · subst hj
      rw [Function.update_self]
      exact List.nodup_singleton c
    · rw [Function.update_of_ne hj]
      exact h.nodup j
  · by_cases hj : j = k
    · subst hj
      rw [Function.update_self, List.mem_singleton] at hd
      rw [Function.update_of_ne (Ne.symm hjj), hd]
      exact hnot j'
    · rw [Function.update_of_ne hj] at hd
      by_cases hj' : j' = k
      · subst hj'
        rw [Function.update_self, List.mem_singleton]
        exact fun he => hnot j (he ▸ hd)
      · rw [Function.update_of_ne hj']
        exact h.disjoint j j' hjj d hd
  · by_cases hdc : d = c
    · refine ⟨k, ?_⟩
      rw [Function.update_self, hdc]
      exact List.mem_singleton_self c
    · rw [hn d hd hdc] at hf
      obtain ⟨j, hj⟩ := h.cover d hd hf
      have hjk : j ≠ k := by
        intro he
        rw [he, hk] at hj
        exact List.not_mem_nil hj
      refine ⟨j, ?_⟩
      rw [Function.update_of_ne hjk]
      exact hj

/-- A chain goes to an owner without one. -/
theorem move (h : Partition next ends free cell own) {k k' : κ} (hk : own k' = []) :
    Partition next ends free cell (Function.update (Function.update own k []) k' (own k)) := by
  -- the new owner of each list is an old one
  have howner : ∀ j, (Function.update (Function.update own k []) k' (own k)) j =
      if j = k' then own k else if j = k then [] else own j := by
    intro j
    by_cases hj' : j = k'
    · rw [hj', Function.update_self, if_pos rfl]
    · rw [Function.update_of_ne hj', if_neg hj']
      by_cases hj : j = k
      · rw [hj, Function.update_self, if_pos rfl]
      · rw [Function.update_of_ne hj, if_neg hj]
  have hmem : ∀ j d, d ∈ (Function.update (Function.update own k []) k' (own k)) j →
      (j = k' ∧ d ∈ own k) ∨ (j ≠ k' ∧ j ≠ k ∧ d ∈ own j) := by
    intro j d hd
    rw [howner] at hd
    by_cases hj' : j = k'
    · rw [if_pos hj'] at hd
      exact .inl ⟨hj', hd⟩
    · rw [if_neg hj'] at hd
      by_cases hj : j = k
      · rw [if_pos hj] at hd
        exact absurd hd List.not_mem_nil
      · rw [if_neg hj] at hd
        exact .inr ⟨hj', hj, hd⟩
  refine ⟨fun j => ?_, fun j d hd => ?_, fun j => ?_, fun j j' hjj d hd hd' => ?_, fun d hd hf => ?_⟩
  · rw [howner]
    split_ifs
    · exact h.linked k
    · exact .nil
    · exact h.linked j
  · rcases hmem j d hd with ⟨_, hd⟩ | ⟨_, _, hd⟩
    · exact h.cells k d hd
    · exact h.cells j d hd
  · rw [howner]
    split_ifs
    · exact h.nodup k
    · exact List.nodup_nil
    · exact h.nodup j
  · rcases hmem j d hd with ⟨h1, h2⟩ | ⟨_, h2, h3⟩
    · rcases hmem j' d hd' with ⟨h4, _⟩ | ⟨_, h5, h6⟩
      · exact hjj (h1.trans h4.symm)
      · exact h.disjoint k j' (Ne.symm h5) d h2 h6
    · rcases hmem j' d hd' with ⟨_, h5⟩ | ⟨_, _, h6⟩
      · exact h.disjoint j k h2 d h3 h5
      · exact h.disjoint j j' hjj d h3 h6
  · obtain ⟨j, hj⟩ := h.cover d hd hf
    by_cases hjk : j = k
    · refine ⟨k', ?_⟩
      rw [howner, if_pos rfl, ← hjk]
      exact hj
    · have hjk' : j ≠ k' := by
        intro he
        rw [he, hk] at hj
        exact List.not_mem_nil hj
      refine ⟨j, ?_⟩
      rw [howner, if_neg hjk', if_neg hjk]
      exact hj

/-- The chain of one cell `d` is linked behind `c`, the last of another chain. -/
theorem link [DecidableEq α] (h : Partition next ends free cell own) {k k' : κ} (hne : k ≠ k') {i : Nat}
    {c d : α} (hc : (own k)[i]? = some c) (hi : i + 1 = (own k).length) (hk' : own k' = [d])
    (hn : ∀ e, cell e → next' e = if e = c then d else next e) :
    Partition next' ends free cell (Function.update (Function.update own k (own k ++ [d])) k' []) := by
  have hcm : c ∈ own k := List.mem_of_getElem? hc
  have hdm : d ∈ own k' := by rw [hk']; exact List.mem_singleton_self d
  have hdk : d ∉ own k := h.disjoint k' k (Ne.symm hne) d hdm
  have hdc : d ≠ c := fun he => hdk (he ▸ hcm)
  have howner : ∀ j, (Function.update (Function.update own k (own k ++ [d])) k' []) j =
      if j = k' then [] else if j = k then own k ++ [d] else own j := by
    intro j
    by_cases hj' : j = k'
    · rw [hj', Function.update_self, if_pos rfl]
    · rw [Function.update_of_ne hj', if_neg hj']
      by_cases hj : j = k
      · rw [hj, Function.update_self, if_pos rfl]
      · rw [Function.update_of_ne hj, if_neg hj]
  have hmem : ∀ j e, e ∈ (Function.update (Function.update own k (own k ++ [d])) k' []) j →
      j ≠ k' ∧ ((j = k ∧ (e ∈ own k ∨ e = d)) ∨ (j ≠ k ∧ e ∈ own j)) := by
    intro j e he
    rw [howner] at he
    by_cases hj' : j = k'
    · rw [if_pos hj'] at he
      exact absurd he List.not_mem_nil
    · rw [if_neg hj'] at he
      by_cases hj : j = k
      · rw [if_pos hj, List.mem_append, List.mem_singleton] at he
        exact ⟨hj', .inl ⟨hj, he⟩⟩
      · rw [if_neg hj] at he
        exact ⟨hj', .inr ⟨hj, he⟩⟩
  refine ⟨fun j => ?_, fun j e he => ?_, fun j => ?_, fun j j' hjj e he he' => ?_, fun e he hf => ?_⟩
  · rw [howner]
    split_ifs with h1 h2
    · exact .nil
    · have hend : ends (next d) := by
        have := (h.linked k').last 0 d (by rw [hk']; rfl) (by rw [hk']; rfl)
        exact this
      have happ := (h.linked k).append (h.nodup k) hc hi hdk hend
      refine happ.congr fun e he => ?_
      have hcell : cell e := by
        rcases List.mem_append.mp he with hm | hm
        · exact h.cells k e hm
        · rw [List.mem_singleton.mp hm]
          exact h.cells k' d hdm
      rw [hn e hcell]
      by_cases hec : e = c
      · rw [if_pos hec, hec, Function.update_self]
      · rw [if_neg hec, Function.update_of_ne hec]
    · refine (h.linked j).congr fun e he => ?_
      rw [hn e (h.cells j e he), if_neg]
      exact fun hec => h.disjoint j k h2 e he (hec ▸ hcm)
  · obtain ⟨_, ⟨_, h1 | h1⟩ | ⟨_, h1⟩⟩ := hmem j e he
    · exact h.cells k e h1
    · rw [h1]
      exact h.cells k' d hdm
    · exact h.cells j e h1
  · rw [howner]
    split_ifs
    · exact List.nodup_nil
    · rw [List.nodup_append]
      refine ⟨h.nodup k, List.nodup_singleton d, fun a ha b hb => ?_⟩
      rw [List.mem_singleton.mp hb]
      exact fun hab => hdk (hab ▸ ha)
    · exact h.nodup j
  · obtain ⟨h1, h2⟩ := hmem j e he
    obtain ⟨h1', h2'⟩ := hmem j' e he'
    rcases h2 with ⟨h3, h4⟩ | ⟨h3, h4⟩
    · rcases h2' with ⟨h5, _⟩ | ⟨h5, h6⟩
      · exact hjj (h3.trans h5.symm)
      · rcases h4 with h4 | h4
        · exact h.disjoint k j' (Ne.symm h5) e h4 h6
        · exact h.disjoint k' j' (Ne.symm h1') d hdm (h4 ▸ h6)
    · rcases h2' with ⟨h5, h6 | h6⟩ | ⟨_, h6⟩
      · exact h.disjoint j k h3 e h4 h6
      · exact h.disjoint k' j (Ne.symm h1) d hdm (h6 ▸ h4)
      · exact h.disjoint j j' hjj e h4 h6
  · by_cases hec : e = c
    · refine ⟨k, ?_⟩
      rw [howner, if_neg hne, if_pos rfl, hec]
      exact List.mem_append_left _ hcm
    · rw [hn e he, if_neg hec] at hf
      obtain ⟨j, hj⟩ := h.cover e he hf
      by_cases hj' : j = k'
      · refine ⟨k, ?_⟩
        rw [hj', hk'] at hj
        rw [howner, if_neg hne, if_pos rfl]
        exact List.mem_append_right _ hj
      · by_cases hjk : j = k
        · refine ⟨k, ?_⟩
          rw [howner, if_neg hne, if_pos rfl]
          exact List.mem_append_left _ (hjk ▸ hj)
        · refine ⟨j, ?_⟩
          rw [howner, if_neg hj', if_neg hjk]
          exact hj

/-- The first cell of a chain is freed. -/
theorem freeHead (h : Partition next ends free cell own) {k : κ} {c : α} {rest : List α}
    (hk : own k = c :: rest) (hc : next' c = free) (hn : ∀ d, cell d → d ≠ c → next' d = next d) :
    Partition next' ends free cell (Function.update own k rest) := by
  have hcm : c ∈ own k := by rw [hk]; exact List.mem_cons_self
  have hnd : c ∉ rest ∧ rest.Nodup := List.nodup_cons.mp (hk ▸ h.nodup k)
  have hsub : ∀ d ∈ rest, d ∈ own k := fun d hd => by rw [hk]; exact List.mem_cons_of_mem _ hd
  have hmem : ∀ j d, d ∈ Function.update own k rest j → d ∈ own j ∧ d ≠ c := by
    intro j d hd
    by_cases hj : j = k
    · subst hj
      rw [Function.update_self] at hd
      exact ⟨hsub d hd, fun he => hnd.1 (he ▸ hd)⟩
    · rw [Function.update_of_ne hj] at hd
      exact ⟨hd, fun he => h.disjoint j k hj d hd (he ▸ hcm)⟩
  refine ⟨fun j => ?_, fun j d hd => h.cells j d (hmem j d hd).1, fun j => ?_,
    fun j j' hjj d hd hd' => h.disjoint j j' hjj d (hmem j d hd).1 (hmem j' d hd').1, fun d hd hf => ?_⟩
  · by_cases hj : j = k
    · subst hj
      rw [Function.update_self]
      have := (hk ▸ h.linked j).tail
      exact this.congr fun d hd => hn d (h.cells j d (hsub d hd)) fun he => hnd.1 (he ▸ hd)
    · rw [Function.update_of_ne hj]
      exact (h.linked j).congr fun d hd =>
        hn d (h.cells j d hd) fun he => h.disjoint j k hj d hd (he ▸ hcm)
  · by_cases hj : j = k
    · subst hj
      rw [Function.update_self]
      exact hnd.2
    · rw [Function.update_of_ne hj]
      exact h.nodup j
  · have hdc : d ≠ c := fun he => hf (he ▸ hc)
    rw [hn d hd hdc] at hf
    obtain ⟨j, hj⟩ := h.cover d hd hf
    refine ⟨j, ?_⟩
    by_cases hjk : j = k
    · subst hjk
      rw [Function.update_self]
      rw [hk] at hj
      exact (List.mem_cons.mp hj).resolve_left hdc
    · rw [Function.update_of_ne hjk]
      exact hj

end Partition
end Chains
