import WeightedAutomata.Proofs.Determinization.Closure

/-!
What weighted seeds close to, as a relation. It depends neither on the budget nor on the order of
the seeds, other than for the order of the closure.
-/
namespace WeightedAutomata

variable {L S T W : Type} [BEq S] [LawfulBEq S] [Hashable S]

namespace WeightedStates

variable [Semiring W] {ws vs : WeightedStates S W} {s : S} {w : W}

omit [BEq S] [LawfulBEq S] [Hashable S] in
theorem weigh_indicator_of_notMem (h : s ∉ ws.map Prod.fst) : weigh ws (indicator s) = 0 := by
  refine weigh_zero _ fun e he => indicator_of_ne ?_
  rintro rfl
  exact h (List.mem_map.2 ⟨e, he, rfl⟩)

omit [BEq S] [LawfulBEq S] [Hashable S] in
theorem weigh_indicator_of_mem (hws : (ws.map Prod.fst).Nodup) (h : (s, w) ∈ ws) :
    weigh ws (indicator s) = w := by
  induction ws with
  | nil => cases h
  | cons e ws ih =>
    obtain ⟨hnew, hws⟩ := List.nodup_cons.1 hws
    rw [weigh_cons]
    rcases List.mem_cons.1 h with rfl | h
    · rw [weigh_indicator_of_notMem hnew, indicator_self, mul_one, add_zero]
    · have hne : e.1 ≠ s := fun heq => hnew (heq ▸ List.mem_map.2 ⟨_, h, rfl⟩)
      rw [indicator_of_ne hne, mul_zero, zero_add, ih hws h]

omit [Hashable S] in
theorem weightOf_eq_weigh (hws : (ws.map Prod.fst).Nodup) (s : S) :
    ws.weightOf s = weigh ws (indicator s) := by
  by_cases hs : s ∈ ws.map Prod.fst
  · obtain ⟨⟨s, w⟩, he, rfl⟩ := List.mem_map.1 hs
    rw [weightOf_of_mem hws he, weigh_indicator_of_mem hws he]
  · rw [weightOf_of_notMem hs, weigh_indicator_of_notMem hs]

omit [BEq S] [LawfulBEq S] [Hashable S] in
/-- Weighted states without zeros and repetitions are told by their sums. -/
theorem perm_of_weigh (hws : (ws.map Prod.fst).Nodup) (hvs : (vs.map Prod.fst).Nodup)
    (hws₀ : ∀ e ∈ ws, e.2 ≠ 0) (hvs₀ : ∀ e ∈ vs, e.2 ≠ 0) (h : ∀ g, weigh ws g = weigh vs g) :
    ws.Perm vs := by
  have hmem {us xs : WeightedStates S W} (hus : (us.map Prod.fst).Nodup)
      (hxs : (xs.map Prod.fst).Nodup) (hus₀ : ∀ e ∈ us, e.2 ≠ 0)
      (heq : ∀ g, weigh us g = weigh xs g) (e : S × W) (he : e ∈ us) : e ∈ xs := by
    obtain ⟨s, w⟩ := e
    have hw := weigh_indicator_of_mem hus he
    rw [heq] at hw
    by_cases hs : s ∈ xs.map Prod.fst
    · obtain ⟨⟨s, v⟩, hv, rfl⟩ := List.mem_map.1 hs
      rwa [← (weigh_indicator_of_mem hxs hv).symm.trans hw]
    · rw [weigh_indicator_of_notMem hs] at hw
      exact absurd hw.symm (hus₀ _ he)
  exact (List.perm_ext_iff_of_nodup (List.Nodup.of_map _ hws) (List.Nodup.of_map _ hvs)).2
    fun e => ⟨hmem hws hvs hws₀ h e, hmem hvs hws hvs₀ (fun g => (h g).symm) e⟩

end WeightedStates

namespace Automaton

open WeightedStates

section Budgets

variable {B : Automaton Option L S T W} {budget budget' : ℕ} (hle : budget ≤ budget')
include hle

omit [LawfulBEq S] in
theorem states_mono {states : List S} (h : B.states budget = some states) :
    B.states budget' = some states := by
  unfold Automaton.states explore at h ⊢
  obtain ⟨visited, h, hstates⟩ := Option.bind_eq_some_iff.1 h
  obtain ⟨ss, hss, h⟩ := Option.bind_eq_some_iff.1 h
  obtain ⟨sweep, hsweep, h⟩ := Option.bind_eq_some_iff.1 h
  refine Option.bind_eq_some_iff.2 ⟨visited, Option.bind_eq_some_iff.2 ⟨ss, hss, ?_⟩, hstates⟩
  exact Option.bind_eq_some_iff.2 ⟨sweep, untilDone_mono hle hsweep, h⟩

variable [Zero W] [One W] [Add W] [Mul W] [BEq W]

omit [LawfulBEq S] [One W] in
theorem distances_mono {solver : Solver W} {s : S} {d : Distances S W}
    (h : B.distances budget solver s = some d) : B.distances budget' solver s = some d := by
  unfold distances at h ⊢
  obtain ⟨initial, hinitial, h⟩ := Option.bind_eq_some_iff.1 h
  refine Option.bind_eq_some_iff.2 ⟨initial, hinitial, ?_⟩
  split at h
  · next hz => rwa [if_pos hz]
  · next hz =>
    rw [if_neg hz]
    obtain ⟨r, hr, h⟩ := Option.bind_eq_some_iff.1 h
    exact Option.bind_eq_some_iff.2 ⟨r, untilDone_mono hle hr, h⟩

omit [LawfulBEq S] in
theorem distancesFromInitial_mono {solver : Solver W} {d : Distances S W}
    (h : B.distancesFromInitial budget solver = some d) :
    B.distancesFromInitial budget' solver = some d := by
  unfold distancesFromInitial at h ⊢
  obtain ⟨r, hr, h⟩ := Option.bind_eq_some_iff.1 h
  exact Option.bind_eq_some_iff.2 ⟨r, distances_mono hle hr, h⟩

omit [LawfulBEq S] in
theorem epsilonClosure_mono {seeds closed : WeightedStates S W}
    (h : B.epsilonClosure budget seeds = some closed) :
    B.epsilonClosure budget' seeds = some closed := by
  unfold epsilonClosure at h ⊢
  obtain ⟨d, hd, h⟩ := Option.bind_eq_some_iff.1 h
  obtain ⟨states, hstates, h⟩ := Option.bind_eq_some_iff.1 h
  refine Option.bind_eq_some_iff.2 ⟨d, distancesFromInitial_mono hle hd, ?_⟩
  exact Option.bind_eq_some_iff.2 ⟨states, states_mono hle hstates, h⟩

end Budgets

variable [Semiring W] [BEq W] [LawfulBEq W] {A : Automaton Id L S T W}
variable {seeds seeds' closed closed' : WeightedStates S W}

omit [Hashable S] [LawfulBEq W] in
theorem reachable_of_epsilonPart (hseeds : ∀ e ∈ seeds, A.Reachable e.1) {s : S}
    (hs : (A.epsilonPart seeds.collect).Reachable s) : A.Reachable s := by
  have hlift := lift_answers_reachable Option A
  exact (hlift.epsilonPart (forall_starts_epsilonPart_collect hseeds)).reachable hs

omit [Hashable S] in
theorem mem_starts_epsilonPart_iff (hA : A.Lawful) {s : S} :
    s ∈ (A.epsilonPart seeds.collect).starts ↔ weigh seeds (indicator s) ≠ 0 := by
  obtain ⟨hnodup, -, hsum⟩ := collect_spec seeds
  rw [(lawful_epsilonPart hA hnodup).mem_starts, ← hsum, ← weightOf_eq_weigh hnodup]
  rfl

omit [Hashable S] [LawfulBEq W] in
/-- Where the seeds reach finitely many states without labels, their closure is bounded. -/
theorem exists_bounded_seeds (hepsilon : A.EpsilonAcyclic) (hseeds : ∀ e ∈ seeds, A.Reachable e.1)
    (hfinite : {s | (A.epsilonPart seeds.collect).Reachable s}.Finite) :
    ∃ size, (A.epsilonPart seeds.collect).Bounded (A.epsilonPart seeds.collect).Reachable size := by
  apply exists_bounded (closed_reachable _) hfinite
  intro s hs ts hne hpath
  obtain ⟨hpath, hlabels⟩ := isPath_of_epsilonPart hpath
  exact hepsilon s (reachable_of_epsilonPart hseeds hs) ts hne hpath hlabels

/-- Within some number of steps the seeds close to `closed`. -/
def ClosesTo (A : Automaton Id L S T W) (seeds closed : WeightedStates S W) : Prop :=
  ∃ budget, (A.lift : Automaton Option L S T W).epsilonClosure budget seeds = some closed

namespace ClosesTo

/-- A closure lists states that the seeds reach without labels, each once and none with weight zero;
and there are finitely many of them. -/
theorem spec (h : A.ClosesTo seeds closed) : (closed.map Prod.fst).Nodup ∧
    (∀ e ∈ closed, (A.epsilonPart seeds.collect).Reachable e.1 ∧ e.2 ≠ 0) ∧
      {s | (A.epsilonPart seeds.collect).Reachable s}.Finite := by
  obtain ⟨budget, h⟩ := h
  unfold epsilonClosure at h
  obtain ⟨d, -, h⟩ := Option.bind_eq_some_iff.1 h
  obtain ⟨states, hstates, h⟩ := Option.bind_eq_some_iff.1 h
  obtain ⟨visited, hvisited, hmap⟩ := Option.bind_eq_some_iff.1 hstates
  obtain rfl := Option.some.inj h
  obtain rfl := Option.some.inj hmap
  obtain ⟨hnodup, hmem, -⟩ := explore_spec (Q := A.epsilonPart seeds.collect)
    (fun ss hss => (Option.some.inj hss).symm) (fun s ts hts => (Option.some.inj hts).symm) rfl
    hvisited
  refine ⟨nodup_weighed hnodup, fun e he => ?_, ?_⟩
  · obtain ⟨s, hs, he⟩ := List.mem_filterMap.1 he
    obtain ⟨rfl, hne⟩ := of_weighed he
    exact ⟨(hmem e.1).1 hs, hne⟩
  · exact (List.finite_toSet (visited.map Prod.fst)).subset fun s hs => (hmem s).2 hs

omit [LawfulBEq S] [LawfulBEq W] in
/-- The outcome is that of any budget that is large enough. -/
theorem eq_of_run (h : A.ClosesTo seeds closed) {n : ℕ} (hrun : ∀ budget, n < budget →
    (A.lift : Automaton Option L S T W).epsilonClosure budget seeds = some closed') :
    closed = closed' := by
  obtain ⟨budget, h⟩ := h
  have h := epsilonClosure_mono (le_max_left budget (n + 1)) h
  rw [hrun _ (by omega)] at h
  exact (Option.some.inj h).symm

theorem reachable (h : A.ClosesTo seeds closed) (hseeds : ∀ e ∈ seeds, A.Reachable e.1) :
    ∀ e ∈ closed, A.Reachable e.1 :=
  fun e he => reachable_of_epsilonPart hseeds (h.spec.2.1 e he).1

theorem weigh_eq {size : S → ℕ} (h : A.ClosesTo seeds closed) (hA : A.Lawful)
    (hseeds : ∀ e ∈ seeds, A.Reachable e.1) (hb : (A.epsilonPart seeds.collect).Bounded
      (A.epsilonPart seeds.collect).Reachable size) (g : S → W) :
    weigh closed g = weigh seeds (A.closing size g) := by
  have hlift := lift_answers_reachable Option A
  obtain ⟨c, -, -, hsum, hrun⟩ := hlift.epsilonClosure_eq hA hseeds hb
  rw [h.eq_of_run hrun, hsum]

/-- Seeds in another order close to the same weighted states. -/
theorem perm (h : A.ClosesTo seeds closed) (h' : A.ClosesTo seeds' closed') (hA : A.Lawful)
    (hepsilon : A.EpsilonAcyclic) (hseeds : ∀ e ∈ seeds, A.Reachable e.1)
    (hperm : seeds.Perm seeds') : closed.Perm closed' := by
  obtain ⟨hnodup, hkept, hfinite⟩ := h.spec
  obtain ⟨hnodup', hkept', -⟩ := h'.spec
  have hseeds' : ∀ e ∈ seeds', A.Reachable e.1 := fun e he => hseeds e (hperm.mem_iff.2 he)
  obtain ⟨size, hb⟩ := exists_bounded_seeds hepsilon hseeds hfinite
  have hstarts (s : S) : s ∈ (A.epsilonPart seeds'.collect).starts ↔
      s ∈ (A.epsilonPart seeds.collect).starts := by
    rw [mem_starts_epsilonPart_iff hA, mem_starts_epsilonPart_iff hA, weigh_perm _ hperm]
  have hreach {s : S} (hs : (A.epsilonPart seeds'.collect).Reachable s) :
      (A.epsilonPart seeds.collect).Reachable s := by
    induction hs with
    | start hs => exact .start ((hstarts _).1 hs)
    | step _ ht ih => exact ih.step ht
  have hb' : (A.epsilonPart seeds'.collect).Bounded
      (A.epsilonPart seeds'.collect).Reachable size :=
    ⟨closed_reachable _, fun s hs => hb.sum_lt s (hreach hs)⟩
  refine perm_of_weigh hnodup hnodup' (fun e he => (hkept e he).2) (fun e he => (hkept' e he).2)
    fun g => ?_
  rw [h.weigh_eq hA hseeds hb, h'.weigh_eq hA hseeds' hb', weigh_perm _ hperm]

/-- Closing leaves a total weight where there was one. -/
theorem total_ne_zero [BEq L] (h : A.ClosesTo seeds closed) (hA : A.Lawful)
    (hepsilon : A.EpsilonAcyclic) (hseeds : ∀ e ∈ seeds, A.Reachable e.1) (hzero : ZeroSumFree W)
    (hne : weigh seeds (fun _ => 1) ≠ 0) : weigh closed (fun _ => 1) ≠ 0 := by
  obtain ⟨size, hb⟩ := exists_bounded_seeds hepsilon hseeds h.spec.2.2
  have hb' : (A.epsilonPart []).Bounded (A.epsilonPart seeds.collect).Reachable size :=
    ⟨hb.closed, hb.sum_lt⟩
  rw [h.weigh_eq hA hseeds hb]
  refine fun hz => hne (List.sum_eq_zero fun w hw => ?_)
  obtain ⟨e, he, rfl⟩ := List.mem_map.1 hw
  by_contra hw
  have hstart : e.1 ∈ (A.epsilonPart seeds.collect).starts := by
    refine (mem_starts_epsilonPart_iff hA).2 fun hz => hw ?_
    rw [← eq_zero_of_weigh hzero hz e he, indicator_self]
  have hterm := eq_zero_of_weigh hzero hz e he
  rw [closing_eq hb' _ (.start hstart), mul_add] at hterm
  exact hw (hzero _ _ hterm).1

end ClosesTo

/-- Every reachable state reaches finitely many states without labels. -/
def EpsilonFinite (A : Automaton Id L S T W) : Prop :=
  ∀ s, A.Reachable s → {q | ∃ ts, A.IsPath s ts ∧ A.labels ts = [] ∧ A.endpoint s ts = q}.Finite

/-- Without cycles, and with finitely many states to reach, the closure comes to an end. -/
theorem exists_epsilonClosure (hA : A.Lawful) (hepsilon : A.EpsilonAcyclic)
    (hfinite : A.EpsilonFinite) (hseeds : ∀ e ∈ seeds, A.Reachable e.1) :
    ∃ closed n, ∀ budget, n < budget →
      (A.lift : Automaton Option L S T W).epsilonClosure budget seeds = some closed := by
  have hreach : {s | (A.epsilonPart seeds.collect).Reachable s}.Finite := by
    have hunion : (⋃ s ∈ {s | s ∈ seeds.map Prod.fst},
        {q | ∃ ts, A.IsPath s ts ∧ A.labels ts = [] ∧ A.endpoint s ts = q}).Finite := by
      refine Set.Finite.biUnion (List.finite_toSet _) fun s hs => ?_
      obtain ⟨e, he, rfl⟩ := List.mem_map.1 hs
      exact hfinite e.1 (hseeds e he)
    refine hunion.subset fun q hq => ?_
    obtain ⟨s, hs, ts, hts, rfl⟩ := Reachable.exists_path hq
    obtain ⟨hpath, hlabels⟩ := isPath_of_epsilonPart hts
    exact Set.mem_biUnion (mem_starts_epsilonPart_collect hs) ⟨ts, hpath, hlabels, rfl⟩
  obtain ⟨size, hb⟩ := exists_bounded_seeds hepsilon hseeds hreach
  have hlift := lift_answers_reachable Option A
  obtain ⟨closed, -, -, -, hrun⟩ := hlift.epsilonClosure_eq hA hseeds hb
  exact ⟨closed, _, hrun⟩

end Automaton

end WeightedAutomata
