import WeightedAutomata.Proofs.Determinization.Consistency

/-!
Queries of a determinization come to an end where epsilon transitions form no cycles and reach
finitely many states from each.
-/
namespace WeightedAutomata.Automaton

variable {L S T W : Type} [Semiring W] [BEq S] [BEq W] [Hashable S] [PartialInverse W] [BEq L]
variable {A : Automaton Id L S T W}

omit [BEq L] in
theorem settle_ends [LawfulBEq W] {budget : ℕ} {seeds closed : WeightedStates S W}
    (h : (A.lift : Automaton Option L S T W).epsilonClosure budget seeds = some closed)
    (μ : SubsetMemory L S W) : ∃ r ν,
      ((A.lift : Automaton Option L S T W).settle budget seeds).run μ = some (r, ν) := by
  by_cases hz : weigh closed (fun _ => 1) = 0
  · exact ⟨_, _, settle_of_zero h hz⟩
  · cases hinv : PartialInverse.inverse (weigh closed fun _ => 1) with
    | error e => exact ⟨_, _, settle_of_error h hz hinv⟩
    | ok b => exact ⟨_, _, settle_of_ok h hz hinv⟩

omit [BEq L] in
theorem settle_groups_ends [LawfulBEq W] {budget : ℕ} (i : ℕ)
    {groups : List (L × WeightedStates S W)} (h : ∀ p ∈ groups, ∃ closed,
      (A.lift : Automaton Option L S T W).epsilonClosure budget p.2 = some closed)
    (μ : SubsetMemory L S W) : ∃ ts ν, (groups.filterMapM fun (label, seeds) => do
      return (← (A.lift : Automaton Option L S T W).settle budget seeds).map
        fun (target, weight) => (⟨i, target, label, weight⟩ : SubsetTransition L W)).run μ =
          some (ts, ν) := by
  induction groups generalizing μ with
  | nil => exact ⟨[], μ, rfl⟩
  | cons p groups ih =>
    obtain ⟨l, seeds⟩ := p
    obtain ⟨closed, hclosed⟩ := h (l, seeds) List.mem_cons_self
    obtain ⟨r, ν, hrun⟩ := settle_ends hclosed μ
    obtain ⟨ts, ξ, hrun'⟩ := ih (fun q hq => h q (List.mem_cons_of_mem _ hq)) ν
    refine ⟨(r.map fun p => ⟨i, p.1, l, p.2⟩).toList ++ ts, ξ, ?_⟩
    rw [run_filterMapM_cons, StateT.run_bind, hrun]
    refine Option.bind_eq_some_iff.2 ⟨(r.map fun p => ⟨i, p.1, l, p.2⟩, ν), rfl, ?_⟩
    exact Option.bind_eq_some_iff.2 ⟨(ts, ξ), hrun', rfl⟩

omit [BEq L] in
theorem startSubset_answered [LawfulBEq W] {budget : ℕ} (h : ∃ closed,
    (A.lift : Automaton Option L S T W).epsilonClosure budget A.startSeeds = some closed)
    (μ : SubsetMemory L S W) : ∃ r ν,
      ((A.lift : Automaton Option L S T W).startSubset budget).run μ = some (r, ν) := by
  obtain ⟨closed, hclosed⟩ := h
  obtain ⟨r, ν, hsettle⟩ := settle_ends hclosed μ
  cases hstart : μ.start with
  | some r => exact ⟨r, μ, by simp [startSubset, hstart]⟩
  | none =>
    refine ⟨r, { ν with start := some r }, ?_⟩
    simp only [startSubset, StateT.run_bind, StateT.run_get, StateT.run_lift, StateT.run_modify,
      StateT.run_pure, pure_bind, hstart, lift_startSeeds]
    rw [hsettle]
    rfl

theorem outgoing_answered [LawfulBEq W] {budget : ℕ} {μ : SubsetMemory L S W} {i : ℕ}
    (h : ∀ p ∈ A.grouped (μ.subset i), ∃ closed,
      (A.lift : Automaton Option L S T W).epsilonClosure budget p.2 = some closed) : ∃ ts ν,
      (((A.lift : Automaton Option L S T W).determinize budget).outgoing i).run μ =
        some (ts, ν) := by
  obtain ⟨ts, ν, hrun⟩ := settle_groups_ends i h μ
  cases hexplored : μ.explored[i]? with
  | some ts => exact ⟨ts, μ, by simp [determinize, hexplored]⟩
  | none =>
    refine ⟨ts, { ν with explored := ν.explored.insert i ts }, ?_⟩
    simp only [determinize, expand, StateT.run_bind, StateT.run_get, StateT.run_lift,
      StateT.run_modify, StateT.run_pure, pure_bind, hexplored, lift_successors]
    change (StateT.run (List.filterMapM _ _) μ >>= _) = _
    rw [hrun]
    rfl

omit [Hashable S] [PartialInverse W] [BEq S] in
/-- What is carried on to a label comes from reachable states. -/
theorem reachable_grouped [LawfulBEq L] {subset : WeightedStates S W}
    (h : ∀ e ∈ subset, A.Reachable e.1) : ∀ p ∈ A.grouped subset, ∀ e ∈ p.2, A.Reachable e.1 := by
  intro p hp
  rw [← seedsOf_of_mem (nodup_grouped _) hp, seedsOf_grouped]
  exact reachable_carried h p.1

variable [LawfulBEq S] [LawfulBEq W] (hA : A.Lawful) (hepsilon : A.EpsilonAcyclic)
variable (hfinite : A.EpsilonFinite)
include hA hepsilon hfinite

omit [PartialInverse W] [BEq L] in
/-- One budget is enough for several closures. -/
theorem exists_epsilonClosures (groups : List (WeightedStates S W))
    (h : ∀ seeds ∈ groups, ∀ e ∈ seeds, A.Reachable e.1) : ∃ budget, ∀ seeds ∈ groups, ∃ closed,
      (A.lift : Automaton Option L S T W).epsilonClosure budget seeds = some closed := by
  induction groups with
  | nil => exact ⟨0, nofun⟩
  | cons seeds groups ih =>
    obtain ⟨closed, n, hrun⟩ :=
      exists_epsilonClosure hA hepsilon hfinite (h seeds List.mem_cons_self)
    obtain ⟨budget, hrest⟩ := ih fun us hus => h us (List.mem_cons_of_mem seeds hus)
    refine ⟨max budget (n + 1), List.forall_mem_cons.2 ⟨⟨closed, hrun _ (by omega)⟩, ?_⟩⟩
    intro us hus
    obtain ⟨closed, hclosed⟩ := hrest us hus
    exact ⟨closed, epsilonClosure_mono (le_max_left _ _) hclosed⟩

omit [BEq L] in
theorem startSubset_ends (μ : SubsetMemory L S W) : ∃ budget r ν,
    ((A.lift : Automaton Option L S T W).startSubset budget).run μ = some (r, ν) := by
  obtain ⟨closed, n, hrun⟩ := exists_epsilonClosure hA hepsilon hfinite reachable_startSeeds
  exact ⟨n + 1, startSubset_answered ⟨closed, hrun _ n.lt_succ_self⟩ μ⟩

theorem outgoing_ends [LawfulBEq L] {μ : SubsetMemory L S W} {i : ℕ}
    (hi : ∀ e ∈ μ.subset i, A.Reachable e.1) : ∃ budget ts ν,
      (((A.lift : Automaton Option L S T W).determinize budget).outgoing i).run μ =
        some (ts, ν) := by
  have hreach : ∀ seeds ∈ (A.grouped (μ.subset i)).map Prod.snd, ∀ e ∈ seeds, A.Reachable e.1 := by
    intro seeds hseeds
    obtain ⟨p, hp, rfl⟩ := List.mem_map.1 hseeds
    exact reachable_grouped hi p hp
  obtain ⟨budget, hclosures⟩ := exists_epsilonClosures hA hepsilon hfinite _ hreach
  exact ⟨budget, outgoing_answered fun p hp => hclosures p.2 (List.mem_map.2 ⟨p, hp, rfl⟩)⟩

end WeightedAutomata.Automaton
