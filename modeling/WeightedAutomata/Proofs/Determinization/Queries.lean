import WeightedAutomata.Proofs.Determinization.Closure
import WeightedAutomata.Proofs.Determinization.Memory
import WeightedAutomata.Proofs.Determinization.Successors

/-!
The queries of a determinization: what each answers, and what it adds to the memory.
-/
namespace WeightedAutomata.Automaton

variable {m : Type → Type} [Monad m] [LawfulMonad m] [StepLimited m] {L S T W : Type}
variable [BEq L] [LawfulBEq L] [BEq S] [LawfulBEq S] [Hashable S] [Semiring W] [BEq W] [LawfulBEq W]
variable [PartialInverse W]

variable {A : Automaton Id L S T W} {closure : S → ℕ} {μ ν : SubsetMemory L S W}
variable {B : Automaton m L S T W} {budget : ℕ}

omit [LawfulBEq L] in
theorem Remembers.settle_run (h : A.Remembers closure μ) (hzero : ZeroSumFree W)
    (hcloses : B.Closes A closure budget) {seeds : WeightedStates S W}
    (hseeds : ∀ e ∈ seeds, A.Reachable e.1) : ∃ r ν, A.Grows closure μ ν ∧
      Settles ν (fun g => weigh seeds (A.closing closure g)) r ∧
        (B.settle budget seeds).run μ = pure (r, ν) := by
  obtain ⟨closed, hnodup, hreach, hsum, hrun⟩ := hcloses seeds hseeds
  have htotal : Weight.sum (closed.map (·.2)) =
      weigh seeds (A.closing closure fun _ => 1) := by
    rw [← hsum, weigh, Weight.sum, ← List.sum_eq_foldl]
    simp
  by_cases hz : weigh seeds (A.closing closure fun _ => 1) = 0
  · refine ⟨none, μ, ⟨h, .refl μ, rfl, rfl⟩, .vanished fun g => ?_, ?_⟩
    · rw [← hsum]
      exact weigh_eq_zero hzero ((hsum _).trans hz) g
    · simp [settle, hrun, htotal, hz]
  · cases hinv : PartialInverse.inverse (weigh seeds (A.closing closure fun _ => 1)) with
    | error e =>
      have hf : (μ.recordFailure e).failure.isSome := by simp [SubsetMemory.recordFailure]
      refine ⟨none, _, h.grows_recordFailure e, .stuck hz hinv hf, ?_⟩
      simp [settle, hrun, htotal, hz, hinv]
    | ok b =>
      let subset : WeightedStates S W := closed.map fun e => (e.1, b * e.2)
      have hfst : subset.map Prod.fst = closed.map Prod.fst := by simp [subset, Function.comp_def]
      have hsubset : subset.Nodup := List.Nodup.of_map Prod.fst (hfst ▸ hnodup)
      have hmem : ∀ e ∈ subset, A.Reachable e.1 := by
        intro e he
        obtain ⟨e', he', rfl⟩ := List.mem_map.1 he
        exact hreach e' he'
      obtain ⟨-, hlt, -⟩ := μ.extends_intern subset
      refine ⟨_, _, h.grows_intern hmem, .placed hz hinv hlt fun g => ?_, ?_⟩
      · rw [μ.weigh_intern hsubset, weigh_map_mul, hsum]
      · simp [settle, hrun, htotal, hz, hinv, subset]

theorem Remembers.settle_groups (h : A.Remembers closure μ) (hzero : ZeroSumFree W)
    (hcloses : B.Closes A closure budget) (i : ℕ) {groups : List (L × WeightedStates S W)}
    (hnodup : (groups.map Prod.fst).Nodup)
    (hreach : ∀ a, ∀ e ∈ seedsOf groups a, A.Reachable e.1) :
    ∃ ts ν, A.Grows closure μ ν ∧
      (∀ a, ∃ r, Settles ν (fun g => weigh (seedsOf groups a) (A.closing closure g)) r ∧
        (ts.filter fun t => t.label == a) =
          (r.map fun p => (⟨i, p.1, a, p.2⟩ : SubsetTransition L W)).toList) ∧
      (groups.filterMapM fun (label, seeds) => do
        return (← B.settle budget seeds).map fun (target, weight) =>
          (⟨i, target, label, weight⟩ : SubsetTransition L W)).run μ = pure (ts, ν) := by
  induction groups generalizing μ with
  | nil =>
    refine ⟨[], μ, ⟨h, .refl μ, rfl, rfl⟩, fun a => ⟨none, .vanished fun g => ?_, rfl⟩, rfl⟩
    rw [seedsOf_nil, weigh_nil]
  | cons p groups ih =>
    obtain ⟨l, seeds⟩ := p
    rw [List.map_cons, List.nodup_cons] at hnodup
    obtain ⟨hl, hnodup⟩ := hnodup
    have hgroup (a : L) (hne : l ≠ a) : seedsOf ((l, seeds) :: groups) a = seedsOf groups a := by
      rw [seedsOf_cons, if_neg (by simpa using hne)]
    have hown : seedsOf ((l, seeds) :: groups) l = seeds := by
      rw [seedsOf_cons, if_pos (by simp)]
    have hseeds : ∀ e ∈ seeds, A.Reachable e.1 := by
      rw [← hown]
      exact hreach l
    obtain ⟨r, ν, hgrows, hr, hrun⟩ := h.settle_run hzero hcloses hseeds
    obtain ⟨ts, ξ, hgrows', hts, hrun'⟩ := ih hgrows.remembers hnodup fun a e he => by
      by_cases ha : l = a
      · rw [← ha, seedsOf_of_notMem hl] at he
        cases he
      · rw [← hgroup a ha] at he
        exact hreach a e he
    refine ⟨(r.map fun p => (⟨i, p.1, l, p.2⟩ : SubsetTransition L W)).toList ++ ts, ξ,
      hgrows.trans hgrows', fun a => ?_, ?_⟩
    · obtain ⟨r', hr', hts'⟩ := hts a
      rw [List.filter_append, hts']
      by_cases ha : l = a
      · subst ha
        have hnone : r' = none := hr'.eq_none fun g => by rw [seedsOf_of_notMem hl, weigh_nil]
        rw [hown, hnone]
        refine ⟨r, hr.mono hgrows'.extends_to, ?_⟩
        cases r <;> simp
      · rw [hgroup a ha]
        refine ⟨r', hr', ?_⟩
        cases r <;> simp [ha]
    · simp only [List.filterMapM_cons, StateT.run_bind, StateT.run_pure, hrun, pure_bind]
      cases r with
      | none => exact hrun'
      | some p =>
        simp only [Option.map_some, StateT.run_bind, StateT.run_pure, hrun', pure_bind]
        rfl

omit [LawfulBEq L] in
theorem Remembers.startSubset_run (h : A.Remembers closure μ) (hzero : ZeroSumFree W)
    (hB : B.Answers A A.Reachable) (hcloses : B.Closes A closure budget) : ∃ r ν,
      A.Remembers closure ν ∧ μ.Extends ν ∧ ν.start = some r ∧
        (B.startSubset budget).run μ = pure (r, ν) := by
  unfold startSubset
  cases hstart : μ.start with
  | some r => exact ⟨r, μ, h, .refl μ, hstart, by simp [hstart]⟩
  | none =>
    let seeds : WeightedStates S W := A.starts.map fun s => (s, A.entry s)
    have hseeds : (B.initialStates >>= fun ss => ss.mapM fun s =>
        return (s, ← B.initialWeight s)) = pure seeds := by
      rw [hB.initialStates, pure_bind]
      exact mapM_eq_pure fun s hs => by rw [hB.initialWeight s (.start hs), pure_bind]
    have hreach : ∀ e ∈ seeds, A.Reachable e.1 := by
      intro e he
      obtain ⟨s, hs, rfl⟩ := List.mem_map.1 he
      exact .start hs
    obtain ⟨r, ν, hgrows, hr, hrun⟩ := h.settle_run hzero hcloses hreach
    have hnew : ν.start = none := hgrows.start.trans hstart
    have hvalue : (fun g => weigh seeds (A.closing closure g)) = A.startValue closure := by
      funext g
      simp [weigh, seeds, startValue, fromStarts, Function.comp_def]
    rw [hvalue] at hr
    refine ⟨r, { ν with start := some r }, hgrows.remembers.set_start hnew hr,
      hgrows.extends_to.trans (ν.extends_set_start hnew r), rfl, ?_⟩
    simp only [StateT.run_bind, StateT.run_get, StateT.run_lift, StateT.run_modify, StateT.run_pure,
      pure_bind, hstart, hseeds, hrun]

theorem Remembers.outgoing_run (h : A.Remembers closure μ) (hzero : ZeroSumFree W)
    (hB : B.Answers A A.Reachable) (hcloses : B.Closes A closure budget) {i : ℕ}
    (hi : i < μ.subsets.size) : ∃ ts ν, A.Remembers closure ν ∧ μ.Extends ν ∧
      ν.explored[i]? = some ts ∧ ((B.determinize budget).outgoing i).run μ = pure (ts, ν) := by
  unfold determinize
  cases hknown : μ.explored[i]? with
  | some ts => exact ⟨ts, μ, h, .refl μ, hknown, by simp [hknown]⟩
  | none =>
    obtain ⟨groups, hgroups, hsuccessors⟩ := hB.successors_eq (h.reachable i)
    obtain ⟨ts, ν, hgrows, hts, hrun⟩ :=
      h.settle_groups hzero hcloses i hgroups.nodup hgroups.reachable
    have hnew : ν.explored[i]? = none := by rw [hgrows.explored, hknown]
    have hexpanded : A.Expanded closure ν i ts := by
      intro a
      obtain ⟨r, hr, hfilter⟩ := hts a
      refine ⟨r, ?_, hfilter⟩
      rw [hgrows.extends_to.subset_eq i hi]
      simp only [hgroups.weigh_eq] at hr
      exact hr
    have hlt : i < ν.subsets.size := lt_of_lt_of_le hi hgrows.extends_to.size_le
    refine ⟨ts, _, hgrows.remembers.insert_explored hlt hnew hexpanded,
      hgrows.extends_to.trans (ν.extends_insert_explored hnew ts), by simp, ?_⟩
    simp only [StateT.run_bind, StateT.run_get, StateT.run_lift, StateT.run_modify, StateT.run_pure,
      pure_bind, hknown, expand, hsuccessors, hrun]

omit [LawfulBEq L] [LawfulBEq S] [LawfulBEq W] in
theorem Remembers.finalWeight_run (h : A.Remembers closure μ) (hB : B.Answers A A.Reachable)
    (i : ℕ) : ((B.determinize budget).finalWeight i).run μ =
      pure (weigh (μ.subset i) A.exit, μ) := by
  have hexit : ∀ e ∈ μ.subset i, ∀ total : W,
      (do return total + e.2 * (← liftM (B.finalWeight e.1)) : Subsets m L S W W) =
        pure (total + e.2 * A.exit e.1) := by
    intro e he total
    rw [hB.finalWeight e.1 (h.reachable i e he), liftM_pure, pure_bind]
  simp only [determinize, StateT.run_bind, StateT.run_get, pure_bind]
  rw [foldlM_eq_pure hexit, weigh, List.sum_eq_foldl, List.foldl_map, StateT.run_pure]

end WeightedAutomata.Automaton
