import Mathlib.Algebra.GroupWithZero.Nat
import Mathlib.Data.Finset.Card
import Mathlib.Logic.Relation
import WeightedAutomata.Proofs.Explicit.Tables
import WeightedAutomata.Proofs.Loop

/-!
Topological ranks by peeling: a queue of the states without incoming edges, and a table of how many
edges into each state are left. The loop comes to an end and never counts below zero. It ranks all
states exactly if no edges form a cycle.
-/
namespace WeightedAutomata

variable {L W : Type}

/-- A graph that is being peeled. -/
structure Peeling where
  /-- How many edges into each state are left. -/
  inDegree : Array ℕ
  /-- The states without incoming edges that are still to be ranked. -/
  ready : List ℕ
  ranks : Array ℕ
  nextRank : ℕ

namespace Peeling

section Loop

variable (E : Explicit L W)

def start : Peeling where
  inDegree := E.incoming.map List.length
  ready := (List.range E.states.size).filter fun s => (E.incoming.map List.length)[s]? == some 0
  ranks := Array.replicate E.states.size 0
  nextRank := 0

/-- Takes an edge off, which must be there and be counted at its target. -/
def detach (p : Peeling) (t : ℕ) : Option Peeling := do
  let e ← E.edges[t]?
  match ← p.inDegree[e.target]? with
  | 0 => none
  | left + 1 => some { p with
      inDegree := p.inDegree.setIfInBounds e.target left
      ready := if left = 0 then p.ready ++ [e.target] else p.ready }

/-- Ranks the next state that is ready and takes off the edges that leave it, if there is one. -/
def next? (p : Peeling) : Option (Option Peeling) :=
  match p.ready with
  | [] => some none
  | s :: ready => do
    let out ← E.outgoing[s]?
    guard (s < p.ranks.size)
    let p := { p with
      ready, ranks := p.ranks.setIfInBounds s p.nextRank, nextRank := p.nextRank + 1 }
    return some (← out.foldlM (detach E) p)

end Loop

end Peeling

/-- The ranks of all states, unless some are left over. Fails if the budget runs out, if an index is
out of range, or if a count would go below zero. -/
def Explicit.peel (E : Explicit L W) (budget : ℕ) : Option (Option (Array ℕ)) := do
  let p ← untilDone (Peeling.next? E) budget (Peeling.start E)
  return if p.nextRank = E.states.size then some p.ranks else none

/-- Some edge leads from one state to the other. -/
def Graph.Adjacent (g : Graph L W) (u v : ℕ) : Prop := ∃ e ∈ g.edges, e.source = u ∧ e.target = v

namespace Graph

variable (g : Graph L W)

/-- The states to which the edges lead that leave `s`. -/
def targets (s : ℕ) : List ℕ :=
  ((g.edgesBy Edge.source).getD s []).filterMap fun t => g.edges[t]?.map Edge.target

def inDegree (s : ℕ) : ℕ := ((g.edgesBy Edge.target).getD s []).length

theorem inDegrees_targets : InDegrees g.states.size g.targets g.inDegree := g.inDegrees

/-- The ranking of the states after `k` rounds. -/
def rounds (k : ℕ) : Ranking := Ranking.rounds g.states.size g.targets g.inDegree k

theorem rounds_succ (k : ℕ) : g.rounds (k + 1) = (g.rounds k).advance g.targets k :=
  Ranking.rounds_succ k

end Graph

namespace Peeling

variable {E : Explicit L W} {r r' : Ranking} {before : List ℕ} {p : Peeling}

/-- The same edges are left as in a ranking, and after `before` the states that are ready come. -/
structure Follows (before : List ℕ) (r : Ranking) (p : Peeling) : Prop where
  inDegree : p.inDegree = r.blockers
  ranked : r.ranked.toList = before ++ p.ready

theorem Follows.detach (h : p.Follows before r) {t : ℕ} {e : Edge L W}
    (he : E.edges[t]? = some e) (hr : r.release? e.target = some r') :
    ∃ p', p.detach E t = some p' ∧ p'.Follows before r' ∧ p'.ranks = p.ranks ∧
      p'.nextRank = p.nextRank := by
  unfold Ranking.release? at hr
  split at hr
  · next left hleft =>
    obtain rfl := Option.some.inj hr
    have hmodify : r.blockers.modify e.target (· - 1) =
        r.blockers.setIfInBounds e.target left := by
      refine Array.ext_getElem? fun i => ?_
      rw [Array.getElem?_modify, Array.getElem?_setIfInBounds]
      split
      · next hi =>
        subst hi
        obtain ⟨hlt, -⟩ := Array.getElem?_eq_some_iff.1 hleft
        rw [hleft, if_pos hlt]
        rfl
      · rfl
    have hset : (r.blockers.setIfInBounds e.target left)[e.target]? = some left :=
      Array.getElem?_setIfInBounds_self_of_lt (Array.getElem?_eq_some_iff.1 hleft).1
    refine ⟨{ p with
      inDegree := p.inDegree.setIfInBounds e.target left
      ready := if left = 0 then p.ready ++ [e.target] else p.ready }, ?_, ⟨?_, ?_⟩, rfl, rfl⟩
    · simp [Peeling.detach, he, h.inDegree, hleft]
    · unfold Ranking.release
      simp only [hmodify, h.inDegree]
      split <;> rfl
    · unfold Ranking.release
      simp only [hmodify, hset, Option.some_inj]
      split
      · rw [Array.toList_push, h.ranked, List.append_assoc]
      · exact h.ranked
  · cases hr

theorem Follows.foldlM_detach (h : p.Follows before r) {ts : List ℕ}
    (hts : ∀ t ∈ ts, ∃ e, E.edges[t]? = some e)
    (hr : (ts.filterMap fun t => E.edges[t]?.map Edge.target).foldlM Ranking.release? r = some r') :
    ∃ p', ts.foldlM (Peeling.detach E) p = some p' ∧ p'.Follows before r' ∧ p'.ranks = p.ranks ∧
      p'.nextRank = p.nextRank := by
  induction ts generalizing p r with
  | nil =>
    obtain rfl := Option.some.inj hr
    exact ⟨p, rfl, h, rfl, rfl⟩
  | cons t ts ih =>
    obtain ⟨e, he⟩ := hts t List.mem_cons_self
    rw [List.filterMap_cons_some (by rw [he, Option.map_some]), List.foldlM_cons] at hr
    obtain ⟨r₁, hr₁, hr⟩ := Option.bind_eq_some_iff.1 hr
    obtain ⟨p₁, hp₁, h₁, hranks, hnext⟩ := h.detach he hr₁
    obtain ⟨p', hp', h', hranks', hnext'⟩ :=
      ih h₁ (fun u hu => hts u (List.mem_cons_of_mem t hu)) hr
    refine ⟨p', ?_, h', hranks'.trans hranks, hnext'.trans hnext⟩
    rw [List.foldlM_cons, hp₁]
    exact hp'

/-- A peeling in which the states `before` have been ranked, round by round. -/
structure Stage (E : Explicit L W) (before : List ℕ) (p : Peeling) : Prop where
  follows : p.Follows before (E.rounds before.length)
  ranks : p.ranks = places E.states.size before
  nextRank : p.nextRank = before.length

theorem Stage.start (E : Explicit L W) : Stage E [] (start E) := by
  have hdegree (s : ℕ) : (E.incoming.map List.length)[s]? =
      if s < E.states.size then some (E.inDegree s) else none := by
    rw [Array.getElem?_map, E.incoming_eq, Graph.inDegree, Array.getD_eq_getD_getElem?,
      Graph.getElem?_edgesBy]
    split <;> rfl
  refine ⟨⟨Array.ext_getElem? fun s => ?_, ?_⟩, rfl, rfl⟩
  · refine (hdegree s).trans ?_
    change _ = ((Array.range E.states.size).map E.inDegree)[s]?
    rw [Array.getElem?_map, Array.getElem?_range]
    split <;> rfl
  · change ((Array.range E.states.size).filter fun s => E.inDegree s == 0).toList =
      (List.range E.states.size).filter fun s => (E.incoming.map List.length)[s]? == some 0
    rw [Array.toList_filter, Array.toList_range]
    refine List.filter_congr fun s hs => ?_
    rw [hdegree, if_pos (List.mem_range.1 hs)]
    rfl

theorem Stage.length_le (h : Stage E before p) : before.length ≤ E.states.size := by
  have hle := Ranking.size_ranked_rounds_le E.inDegrees_targets before.length
  have hranked := congrArg List.length h.follows.ranked
  rw [List.length_append] at hranked
  exact (Nat.le_add_right ..).trans (hranked.symm.le.trans hle)

/-- Every index is in range, and every edge that is taken off has been counted. -/
theorem Stage.next?_eq_some (h : Stage E before p) {u : ℕ} {ready : List ℕ}
    (hready : p.ready = u :: ready) : ∃ p', p.next? E = some (some p') ∧ Stage E (before ++ [u]) p' := by
  have hranked : (E.rounds before.length).ranked.toList = before ++ u :: ready :=
    hready ▸ h.follows.ranked
  have hnext : (E.rounds before.length).ranked.toList[before.length]? = some u := by
    simp [hranked]
  obtain ⟨htracks, hasc⟩ := Ranking.tracks_rounds E.inDegrees_targets before.length
  obtain ⟨-, -, hrun⟩ := htracks.advance E.inDegrees_targets hasc
  have hrun := hrun u hnext
  have hu : u < E.states.size := ((htracks.mem_ranked u).1 (List.mem_of_getElem? hnext)).1
  have hout : E.outgoing[u]? = some ((E.edgesBy Edge.source).getD u []) := by
    rw [E.outgoing_eq, Array.getD_eq_getD_getElem?, Graph.getElem?_edgesBy, if_pos hu]
    rfl
  have hfollows : Follows (before ++ [u]) (E.rounds before.length)
      ⟨p.inDegree, ready, p.ranks.setIfInBounds u p.nextRank, p.nextRank + 1⟩ :=
    ⟨h.follows.inDegree, by rw [hranked]; simp⟩
  have hedges : ∀ t ∈ (E.edgesBy Edge.source).getD u [], ∃ e, E.edges[t]? = some e := by
    intro t ht
    obtain ⟨e, he, -⟩ := (E.mem_edgesBy fun e he => E.source_lt he).1 ht
    exact ⟨e, he⟩
  obtain ⟨p', hp', hfollows', hranks, hrank⟩ := hfollows.foldlM_detach hedges hrun
  refine ⟨p', ?_, ⟨?_, ?_, ?_⟩⟩
  · have hsize : u < p.ranks.size := by rwa [h.ranks, size_places]
    unfold Peeling.next?
    simp only [hready, hout, hsize, guard_true, Option.pure_def, Option.bind_eq_bind,
      Option.bind_some, hp']
  · rw [List.length_append, List.length_singleton, Graph.rounds_succ]
    exact hfollows'
  · rw [hranks, places_concat, h.ranks, h.nextRank]
  · rw [hrank, h.nextRank, List.length_append, List.length_singleton]

/-- The loop ends, within a budget of more than one step for each state. -/
theorem exists_stage_untilDone (E : Explicit L W) : ∃ before p, Stage E before p ∧ p.ready = [] ∧
    ∀ budget, E.states.size < budget → untilDone (next? E) budget (start E) = some p := by
  have hcases (p : Peeling) (hp : ∃ before, Stage E before p) :
      (p.next? E = some none ∧ p.ready = []) ∨ ∃ p', p.next? E = some (some p') ∧
        (∃ before, Stage E before p') ∧
        E.states.size - p'.nextRank < E.states.size - p.nextRank := by
    obtain ⟨before, h⟩ := hp
    cases hready : p.ready with
    | nil => exact .inl ⟨by simp only [next?, hready], rfl⟩
    | cons u ready =>
      obtain ⟨p', hp', h'⟩ := h.next?_eq_some hready
      have hle := h'.length_le
      have hrank := h'.nextRank
      rw [List.length_append, List.length_singleton] at hle hrank
      refine .inr ⟨p', hp', ⟨_, h'⟩, ?_⟩
      rw [hrank, h.nextRank]
      omega
  obtain ⟨p, hp, hdone, hrun⟩ := untilDone_eq_pure (m := Option) (next? E)
    (fun p => (p.next? E).join) (fun p => ∃ before, Stage E before p)
    (fun p => E.states.size - p.nextRank)
    (fun p hp => by
      rcases hcases p hp with ⟨hnone, -⟩ | ⟨p', hsome, -⟩
      · rw [hnone]
        rfl
      · rw [hsome]
        rfl)
    (fun p q hp hnext => by
      rcases hcases p hp with ⟨hnone, -⟩ | ⟨p', hsome, hstage, hlt⟩
      · rw [hnone] at hnext
        cases hnext
      · rw [hsome] at hnext
        cases hnext
        exact ⟨hstage, hlt⟩)
    ⟨[], Stage.start E⟩
  rcases hcases p hp with ⟨-, hready⟩ | ⟨p', hsome, -⟩
  · obtain ⟨before, h⟩ := hp
    exact ⟨before, p, h, hready, hrun⟩
  · rw [hsome] at hdone
    cases hdone

end Peeling

namespace Graph

variable {g : Graph L W}

/-- When all ranked states have had their round, nothing changes any more. -/
theorem rounds_eq_of_size_le {k : ℕ} (hk : (g.rounds k).ranked.size ≤ k) (j : ℕ) :
    g.rounds (k + j) = g.rounds k := by
  induction j with
  | zero => rfl
  | succ j ih =>
    have hnone : (g.rounds k).ranked[k + j]? = none :=
      Array.getElem?_eq_none (hk.trans (Nat.le_add_right k j))
    rw [← Nat.add_assoc, rounds_succ, ih, Ranking.advance, hnone]

theorem lt_of_transGen_adjacent {rank : ℕ → ℕ} (h : ∀ e ∈ g.edges, rank e.source < rank e.target)
    {u v : ℕ} (huv : Relation.TransGen g.Adjacent u v) : rank u < rank v := by
  induction huv with
  | single hedge =>
    obtain ⟨e, he, rfl, rfl⟩ := hedge
    exact h e he
  | tail _ hedge ih =>
    obtain ⟨e, he, rfl, rfl⟩ := hedge
    exact ih.trans (h e he)

/-- Without cycles, fewer states can be reached from the target of an edge than from its source. -/
theorem exists_descent (h : ∀ s, ¬Relation.TransGen g.Adjacent s s) :
    ∃ size : ℕ → ℕ, ∀ e ∈ g.edges, size e.target < size e.source := by
  classical
  refine ⟨fun u => ((Finset.range g.states.size).filter (Relation.TransGen g.Adjacent u)).card,
    fun e he => Finset.card_lt_card ?_⟩
  have hedge : g.Adjacent e.source e.target := ⟨e, he, rfl, rfl⟩
  refine Finset.ssubset_iff_of_subset (fun v hv => ?_) |>.2 ⟨e.target, ?_, ?_⟩
  · obtain ⟨hlt, hv⟩ := Finset.mem_filter.1 hv
    exact Finset.mem_filter.2 ⟨hlt, .head hedge hv⟩
  · exact Finset.mem_filter.2 ⟨Finset.mem_range.2 (g.endpoints e he).2, .single hedge⟩
  · exact fun hmem => h e.target (Finset.mem_filter.1 hmem).2

end Graph

/-- Each state has a place of its own in a list of them all. -/
theorem places_perm {n : ℕ} {ranked : List ℕ} (h : ranked.Perm (List.range n)) :
    (places n ranked).toList.Perm (List.range n) := by
  have hlength : ranked.length = n := by simpa using h.length_eq
  have hplaces : (places n ranked).toList = (List.range n).map ranked.idxOf := by
    refine List.ext_getElem? fun v => ?_
    rw [Array.getElem?_toList, List.getElem?_map]
    by_cases hv : v < n
    · rw [getElem?_places h hv, List.getElem?_range hv, Option.map_some]
    · rw [Array.getElem?_eq_none (by simpa using hv), List.getElem?_eq_none (by simpa using hv),
        Option.map_none]
  have hrange : ranked.map ranked.idxOf = List.range n := by
    refine List.ext_getElem (by simp [hlength]) fun k hk _ => ?_
    rw [List.length_map] at hk
    rw [List.getElem_map, List.getElem_range]
    exact (h.nodup_iff.2 List.nodup_range).idxOf_getElem k hk
  rw [hplaces]
  exact hrange ▸ (h.map ranked.idxOf).symm

namespace Explicit

theorem peel_eq (E : Explicit L W) {budget : ℕ} (hbudget : E.states.size < budget) :
    E.peel budget = some E.ranks := by
  obtain ⟨before, p, h, hready, hrun⟩ := Peeling.exists_stage_untilDone E
  have hranked : (E.rounds before.length).ranked.toList = before := by
    rw [h.follows.ranked, hready, List.append_nil]
  have hlast : E.rounds E.states.size = E.rounds before.length := by
    have hle : (E.rounds before.length).ranked.size ≤ before.length :=
      (congrArg List.length hranked).le
    rw [← Nat.add_sub_cancel' h.length_le]
    exact Graph.rounds_eq_of_size_le hle _
  have hranks : E.ranks = if before.length = E.states.size then
      some (places E.states.size before) else none := by
    rw [E.ranks_eq]
    refine topologicalRanks_eq.trans ?_
    change (if (E.rounds E.states.size).ranked.size = _ then
      some (places _ (E.rounds E.states.size).ranked.toList) else none) = _
    rw [hlast, ← Array.length_toList, hranked]
  unfold peel
  rw [hrun budget hbudget, hranks, ← h.ranks, ← h.nextRank]
  rfl

/-- The peeling loop comes to an end, always with indices in range and counts above zero, and finds
the ranks. There are some exactly if no edges form a cycle, and then they are the numbers below that
of the states, each given once, and rise along every edge. -/
theorem ranks_exact (E : Explicit L W) :
    (∀ budget, E.states.size < budget → E.peel budget = some E.ranks) ∧
    (E.ranks.isSome ↔ ∀ s, ¬Relation.TransGen E.Adjacent s s) ∧
    ∀ ranks, E.ranks = some ranks → ranks.toList.Perm (List.range E.states.size) ∧
      ∀ e ∈ E.edges, ∃ i j, ranks[e.source]? = some i ∧ ranks[e.target]? = some j ∧ i < j := by
  refine ⟨fun budget hbudget => E.peel_eq hbudget, ⟨fun hsome => ?_, fun hacyclic => ?_⟩,
    fun ranks hranks => ⟨?_, fun e he => ?_⟩⟩
  · obtain ⟨ranks, hranks⟩ := Option.isSome_iff_exists.1 hsome
    obtain ⟨rank, -, -, hlt⟩ := E.ranks_spec hranks
    exact fun s hcycle => lt_irrefl _ <| Graph.lt_of_transGen_adjacent
      (fun e he => hlt e (Array.mem_toList_iff.2 he)) hcycle
  · obtain ⟨size, hsize⟩ := Graph.exists_descent hacyclic
    exact E.isSome_ranks size fun e he => hsize e (Array.mem_toList_iff.1 he)
  · rw [E.ranks_eq] at hranks
    obtain ⟨ranked, hperm, -, rfl⟩ := topologicalRanks_spec E.toGraph.inDegrees hranks
    exact places_perm hperm
  · obtain ⟨rank, hget, -, hlt⟩ := E.ranks_spec hranks
    obtain ⟨hsource, htarget⟩ := E.endpoints e he
    exact ⟨_, _, hget _ hsource, hget _ htarget, hlt e (Array.mem_toList_iff.2 he)⟩

/-- Two edges lead into state 0, and both have to be taken off before it is ranked. -/
theorem ranks_parallel_edges :
    let E : Explicit Char ℕ := (Graph.applyPossible .empty [.addStates 3,
      .addTransition ⟨2, 0, some 'a', 1⟩, .addTransition ⟨2, 0, none, 1⟩,
      .addTransition ⟨0, 1, some 'b', 1⟩]).explicit
    E.peel 4 = some (some #[1, 2, 0]) ∧ (∀ s, ¬Relation.TransGen E.Adjacent s s) ∧
      [1, 2, 0].Perm (List.range 3) ∧
      ∀ e ∈ E.edges, ∃ i j, #[1, 2, 0][e.source]? = some i ∧ #[1, 2, 0][e.target]? = some j ∧
        i < j := by
  intro E
  have hranks : E.ranks = some #[1, 2, 0] := by decide +kernel
  obtain ⟨hpeel, hcycles, hspec⟩ := ranks_exact E
  have hpeel := hpeel 4 (by decide +kernel)
  rw [hranks] at hpeel
  exact ⟨hpeel, hcycles.1 (by rw [hranks]; rfl), hspec _ hranks⟩

end Explicit

end WeightedAutomata
