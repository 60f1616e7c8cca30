import Mathlib.Logic.Relator
import WeightedAutomata.Proofs.Copy.Outcome
import WeightedAutomata.Proofs.Paths.Sums

/-!
A copy has a topological order iff the automaton that it is a copy of goes round in no cycle.
-/
namespace WeightedAutomata

variable {L S T W : Type}

/-- Where transitions lead upwards, no path returns to where it started from. -/
theorem Automaton.acyclic_of_lt {A : Automaton Id L S T W} (lt : S → S → Prop)
    (hirrefl : ∀ s, ¬ lt s s) (htrans : ∀ a b c, A.Reachable b → lt a b → lt b c → lt a c)
    (hstep : ∀ s, A.Reachable s → ∀ t ∈ A.leaving s, lt s (A.target t)) : A.Acyclic := by
  have hpath (s : S) (hs : A.Reachable s) (t : T) (ts : List T) (hts : A.IsPath s (t :: ts)) :
      lt s (A.endpoint s (t :: ts)) := by
    induction ts generalizing s t with
    | nil => exact hstep s hs t hts.1
    | cons u us ih =>
      have hnext := hs.step hts.1
      exact htrans _ _ _ hnext (hstep s hs t hts.1) (ih _ hnext u hts.2)
  intro s hs ts hne hts heq
  obtain ⟨t, ts, rfl⟩ := List.exists_cons_of_ne_nil hne
  have h := hpath s hs t ts hts
  rw [heq] at h
  exact hirrefl s h

/-- Each state has one place in a list without repetitions. -/
theorem biUnique_place {ss : List S} (h : ss.Nodup) :
    Relator.BiUnique fun (i : ℕ) s => ss[i]? = some s :=
  ⟨fun _ _ _ hi hj => (List.getElem?_inj (List.getElem?_eq_some_iff.1 hi).1 h).1 (hi.trans hj.symm),
    fun _ _ _ hs hq => Option.some.inj (hs.symm.trans hq)⟩

namespace IsCopy

variable [Zero W] [BEq W] {E : Explicit L W} {C : Automaton Option L S T W} {ss : List S}
variable (h : IsCopy E C ss)
include h

theorem exists_place {s : S} (hs : C.answered.Reachable s) : ∃ i : ℕ, ss[i]? = some s :=
  List.mem_iff_getElem?.1 ((h.mem_iff s).2 hs)

theorem reachable {i : ℕ} {s : S} (hs : ss[i]? = some s) : C.answered.Reachable s :=
  (h.mem_iff s).1 (List.mem_of_getElem? hs)

/-- A transition of the automaton is an edge of the copy. -/
theorem exists_edge {s : S} (hs : C.answered.Reachable s) {t : T} (ht : t ∈ C.answered.leaving s) :
    ∃ e ∈ E.edges.toList, ss[e.source]? = some s ∧ ss[e.target]? = some (C.target t) := by
  obtain ⟨i, hi⟩ := h.exists_place hs
  obtain ⟨us, ts, hus, hts, hall⟩ := h.outgoing i s hi
  rw [Automaton.leaving_answered hts] at ht
  obtain ⟨u, hu, hsource, htarget, -⟩ := exists_mem_of_forall₂ hall ht
  obtain rfl := Option.some.inj hus
  rw [E.outgoing_eq, E.mem_edgesBy fun e he => E.source_lt he] at hu
  obtain ⟨e, he, rfl⟩ := hu
  have hview : E.view.target u = e.target := by
    change E.edges[u]?.elim _ _ = _
    rw [he]
    rfl
  rw [hview] at htarget
  exact ⟨e, List.mem_of_getElem? (i := u) (by simpa using he), hi, htarget⟩

/-- An edge of the copy is a transition of the automaton. -/
theorem exists_transition {e : Edge L W} (he : e ∈ E.edges.toList) :
    ∃ s t, ss[e.source]? = some s ∧ t ∈ C.answered.leaving s ∧ ss[e.target]? = some (C.target t) := by
  have hlt : e.source < ss.length := by
    rw [← h.size_eq]
    exact E.source_lt he
  have hs := List.getElem?_eq_getElem hlt
  obtain ⟨us, ts, hus, hts, hall⟩ := h.outgoing _ _ hs
  obtain ⟨u, hu⟩ := List.mem_iff_getElem?.1 he
  rw [Array.getElem?_toList] at hu
  obtain rfl := Option.some.inj hus
  have hmem : u ∈ E.outgoing.getD e.source [] := by
    rw [E.outgoing_eq, E.mem_edgesBy fun e he => E.source_lt he]
    exact ⟨e, hu, rfl⟩
  obtain ⟨t, ht, -, htarget, -⟩ := exists_mem_of_forall₂ hall.flip hmem
  have hview : E.view.target u = e.target := by
    change E.edges[u]?.elim _ _ = _
    rw [hu]
    rfl
  rw [hview] at htarget
  exact ⟨_, t, hs, by rwa [Automaton.leaving_answered hts], htarget⟩

theorem order_isSome_iff : E.order?.isSome ↔ C.answered.Acyclic := by
  unfold Explicit.order?
  rw [Option.isSome_map]
  constructor
  · intro hsome
    obtain ⟨ranks, hranks⟩ := Option.isSome_iff_exists.1 hsome
    obtain ⟨rank, -, -, hlt⟩ := E.ranks_spec hranks
    let lt (s q : S) : Prop := ∃ i j : ℕ, ss[i]? = some s ∧ ss[j]? = some q ∧ rank i < rank j
    have hunique := (biUnique_place h.nodup).1
    refine Automaton.acyclic_of_lt lt ?_ ?_ fun s hs t ht => ?_
    · rintro s ⟨i, j, hi, hj, hlt⟩
      obtain rfl : i = j := hunique hi hj
      exact lt_irrefl _ hlt
    · rintro a b c - ⟨i, j, hi, hj, hlt⟩ ⟨j', k, hj', hk, hlt'⟩
      obtain rfl : j = j' := hunique hj hj'
      exact ⟨i, k, hi, hk, hlt.trans hlt'⟩
    · obtain ⟨e, he, hsource, htarget⟩ := h.exists_edge hs ht
      exact ⟨_, _, hsource, htarget, hlt e he⟩
  · intro hacyclic
    have hfinite : {s | C.answered.Reachable s}.Finite :=
      ss.finite_toSet.subset fun s hs => (h.mem_iff s).2 hs
    obtain ⟨size, hb⟩ := Automaton.exists_bounded C.answered.closed_reachable hfinite hacyclic
    refine E.isSome_ranks (fun i => ss[i]?.elim 0 size) fun e he => ?_
    obtain ⟨s, t, hs, ht, htarget⟩ := h.exists_transition he
    rw [hs, htarget]
    exact hb.target_lt (h.reachable hs) ht

end IsCopy

end WeightedAutomata
