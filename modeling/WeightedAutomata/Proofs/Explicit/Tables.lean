import Mathlib.Algebra.BigOperators.Group.List.Basic
import WeightedAutomata.Explicit.Basic
import WeightedAutomata.Proofs.Explicit.Ranks

/-!
The tables of an explicit automaton: which edges each state finds there, and what the ranks say
about the edges.
-/
namespace WeightedAutomata

variable {L W : Type}

/-- A list sorted into classes below `n` keeps its elements. -/
theorem flatMap_filter_perm {α : Type} (f : α → ℕ) {n : ℕ} {l : List α} (h : ∀ a ∈ l, f a < n) :
    ((List.range n).flatMap fun s => l.filter fun a => f a == s).Perm l := by
  induction n generalizing l with
  | zero =>
    cases l with
    | nil => exact .refl _
    | cons a l => exact absurd (h a List.mem_cons_self) (Nat.not_lt_zero _)
  | succ n ih =>
    have hbelow : ((List.range n).flatMap fun s => (l.filter fun a => !f a == n).filter
        fun a => f a == s).Perm (l.filter fun a => !f a == n) := by
      apply ih
      intro a ha
      obtain ⟨ha, hne⟩ := List.mem_filter.1 ha
      have hlt := h a ha
      have hne : f a ≠ n := by simpa using hne
      omega
    have hsame : ((List.range n).flatMap fun s => (l.filter fun a => !f a == n).filter
        fun a => f a == s) = (List.range n).flatMap fun s => l.filter fun a => f a == s := by
      apply List.flatMap_congr
      intro s hs
      rw [List.filter_filter]
      apply List.filter_congr
      intro a _
      have hlt := List.mem_range.1 hs
      by_cases ha : f a = s
      · simp [ha, Nat.ne_of_lt hlt]
      · simp [ha]
    rw [List.range_succ, List.flatMap_append, List.flatMap_singleton, ← hsame]
    exact (hbelow.append_right _).trans
      (List.perm_append_comm.trans (List.filter_append_perm (fun a => f a == n) l))

namespace Graph

variable (g : Graph L W) {endpoint : Edge L W → ℕ}

theorem getElem?_edgesBy (endpoint : Edge L W → ℕ) (s : ℕ) : (g.edgesBy endpoint)[s]? =
    if s < g.states.size then
      some ((g.edges.toList.zipIdx.filter fun e => endpoint e.1 == s).map Prod.snd)
    else none := by
  have hfold (es : List (Edge L W × ℕ)) :
      (es.foldr (fun e table => table.modify (endpoint e.1) (e.2 :: ·))
        (Array.replicate g.states.size []))[s]? =
      if s < g.states.size then some ((es.filter fun e => endpoint e.1 == s).map Prod.snd)
      else none := by
    induction es with
    | nil => simp [Array.getElem?_replicate]
    | cons e es ih =>
      rw [List.foldr_cons, Array.getElem?_modify, ih, List.filter_cons]
      by_cases hs : endpoint e.1 = s
      · by_cases hlt : s < g.states.size <;> simp [hs, hlt]
      · simp [hs]
  rw [← hfold, edgesBy, ← Array.foldr_toList, Array.toList_zipIdx]

theorem size_edgesBy (endpoint : Edge L W → ℕ) : (g.edgesBy endpoint).size = g.states.size := by
  have hnone (s : ℕ) : (g.edgesBy endpoint)[s]? = none ↔ g.states.size ≤ s := by
    rw [getElem?_edgesBy]
    split <;> simp <;> omega
  exact le_antisymm (Array.getElem?_eq_none_iff.1 ((hnone _).2 le_rfl))
    ((hnone _).1 (Array.getElem?_eq_none_iff.2 le_rfl))

/-- A state finds the numbers of its edges, in their order. -/
theorem getD_edgesBy (h : ∀ e ∈ g.edges.toList, endpoint e < g.states.size) (s : ℕ) :
    (g.edgesBy endpoint).getD s [] =
      (g.edges.toList.zipIdx.filter fun e => endpoint e.1 == s).map Prod.snd := by
  rw [Array.getD_eq_getD_getElem?, getElem?_edgesBy]
  split
  · rfl
  · next hs =>
    symm
    rw [Option.getD_none, List.map_eq_nil_iff, List.filter_eq_nil_iff]
    intro e he heq
    exact hs (eq_of_beq heq ▸ h e.1 (List.fst_mem_of_mem_zipIdx he))

theorem source_lt {e : Edge L W} (he : e ∈ g.edges.toList) : e.source < g.states.size :=
  (g.endpoints e (Array.mem_toList_iff.1 he)).1

theorem target_lt {e : Edge L W} (he : e ∈ g.edges.toList) : e.target < g.states.size :=
  (g.endpoints e (Array.mem_toList_iff.1 he)).2

theorem mem_edgesBy (h : ∀ e ∈ g.edges.toList, endpoint e < g.states.size) {s t : ℕ} :
    t ∈ (g.edgesBy endpoint).getD s [] ↔ ∃ e, g.edges[t]? = some e ∧ endpoint e = s := by
  rw [getD_edgesBy g h]
  simp only [List.mem_map, List.mem_filter, beq_iff_eq, Prod.exists, exists_eq_right,
    List.mem_zipIdx_iff_getElem?, Array.getElem?_toList]

/-- The numbers of the edges at a state, in increasing order. -/
theorem getD_edgesBy_eq_filter
    (h : ∀ e ∈ g.edges.toList, endpoint e < g.states.size) (s : ℕ) :
    (g.edgesBy endpoint).getD s [] = (List.range g.edges.size).filter fun t =>
      g.edges[t]?.elim absentState endpoint == s := by
  have hrange : List.range g.edges.size = g.edges.toList.zipIdx.map Prod.snd := by
    rw [List.zipIdx_map_snd, Array.length_toList, List.range_eq_range']
  rw [getD_edgesBy g h, hrange, List.filter_map]
  refine congrArg (List.map Prod.snd) (List.filter_congr fun e he => ?_)
  have hget := List.mem_zipIdx_iff_getElem?.1 he
  rw [Array.getElem?_toList] at hget
  rw [Function.comp_apply, hget, Option.elim_some]

/-- A state finds each of its edges once. -/
theorem nodup_edgesBy (h : ∀ e ∈ g.edges.toList, endpoint e < g.states.size) (s : ℕ) :
    ((g.edgesBy endpoint).getD s []).Nodup := by
  rw [getD_edgesBy_eq_filter g h]
  exact List.nodup_range.filter _

/-- The targets of the edges that leave a state. -/
theorem filterMap_edgesBy (s : ℕ) :
    ((g.edgesBy Edge.source).getD s []).filterMap (fun t => g.edges[t]?.map Edge.target) =
      (g.edges.toList.filter fun e => e.source == s).map Edge.target := by
  rw [getD_edgesBy g fun e he => g.source_lt he, List.filterMap_map]
  have htarget : ∀ e ∈ g.edges.toList.zipIdx.filter fun e => e.1.source == s,
      ((fun t => g.edges[t]?.map Edge.target) ∘ Prod.snd) e = some e.1.target := by
    intro e he
    have hget := List.mem_zipIdx_iff_getElem?.1 (List.mem_filter.1 he).1
    rw [Function.comp_apply, ← Array.getElem?_toList, hget, Option.map_some]
  have hfst : (g.edges.toList.filter fun e => e.source == s) =
      (g.edges.toList.zipIdx.filter fun e => e.1.source == s).map Prod.fst := by
    rw [← List.zipIdx_map_fst 0 g.edges.toList, List.filter_map]
    simp only [List.zipIdx_map_fst]
    rfl
  rw [List.filterMap_congr htarget, hfst, List.map_map]
  exact congrFun (List.filterMap_eq_map (f := fun e : Edge L W × ℕ => e.1.target)) _

theorem inDegrees : InDegrees g.states.size
    (fun s => ((g.edgesBy Edge.source).getD s []).filterMap fun t => g.edges[t]?.map Edge.target)
    fun s => ((g.edgesBy Edge.target).getD s []).length where
  target_lt u _ v hv := by
    rw [filterMap_edgesBy] at hv
    obtain ⟨e, he, rfl⟩ := List.mem_map.1 hv
    exact g.target_lt (List.mem_filter.1 he).1
  eq_count v _ := by
    have hperm := (flatMap_filter_perm Edge.source fun e he => g.source_lt he).map Edge.target
    have hlength : (g.edges.toList.zipIdx.filter fun e => e.1.target == v).length =
        (g.edges.toList.zipIdx.map fun e => e.1.target).count v := by
      rw [List.count, List.countP_map, List.countP_eq_length_filter]
      rfl
    have hmap : (g.edges.toList.zipIdx.map fun e => e.1.target) =
        g.edges.toList.map Edge.target := by
      rw [← List.zipIdx_map_fst 0 g.edges.toList, List.map_map, List.zipIdx_map_fst]
      rfl
    simp only [filterMap_edgesBy]
    rw [getD_edgesBy g fun e he => g.target_lt he, List.length_map, hlength, hmap,
      ← hperm.count_eq, List.map_flatMap]

end Graph

namespace Explicit

/-- The ranks tell the states apart, and rise along every edge. -/
theorem ranks_spec (E : Explicit L W) {ranks : Array ℕ} (h : E.ranks = some ranks) :
    ∃ rank : ℕ → ℕ, (∀ s < E.states.size, ranks[s]? = some (rank s)) ∧
      (∀ s < E.states.size, ∀ q < E.states.size, rank s = rank q → s = q) ∧
        ∀ e ∈ E.edges.toList, rank e.source < rank e.target := by
  rw [E.ranks_eq] at h
  obtain ⟨ranked, hperm, hasc, rfl⟩ := topologicalRanks_spec E.toGraph.inDegrees h
  have hmem {s : ℕ} (hs : s < E.states.size) : s ∈ ranked :=
    hperm.mem_iff.2 (List.mem_range.2 hs)
  refine ⟨ranked.idxOf, fun s hs => getElem?_places hperm hs, fun s hs q _ heq => ?_,
    fun e he => ?_⟩
  · exact (List.idxOf_inj (hmem hs)).1 heq
  · refine (hasc e.target (hmem (E.target_lt he)) e.source (E.source_lt he) ?_).2
    dsimp only
    rw [Graph.filterMap_edgesBy]
    exact List.mem_map.2 ⟨e, List.mem_filter.2 ⟨he, by simp⟩, rfl⟩

/-- If every edge goes down by some measure, there are ranks. -/
theorem isSome_ranks (E : Explicit L W) (size : ℕ → ℕ)
    (h : ∀ e ∈ E.edges.toList, size e.target < size e.source) : E.ranks.isSome := by
  rw [E.ranks_eq]
  refine topologicalRanks_isSome E.toGraph.inDegrees size fun u _ v hv => ?_
  rw [Graph.filterMap_edgesBy] at hv
  obtain ⟨e, he, rfl⟩ := List.mem_map.1 hv
  obtain ⟨he, hsource⟩ := List.mem_filter.1 he
  rw [← eq_of_beq hsource]
  exact h e he

end Explicit

end WeightedAutomata
