import WeightedAutomata.Proofs.Determinization.Readings

/-!
What the epsilon closure of weighted states answers: their sums over the paths without labels.
-/
namespace WeightedAutomata

open scoped BigOperators

variable {m : Type → Type} {L S T W : Type} [BEq S] [LawfulBEq S] [Semiring W]

section AppendNew

variable {l : List S} {q s : S}

omit [Semiring W] in
theorem cons_appendNew (hq : q ≠ s) : q :: (if s ∈ l then l else l ++ [s]) =
    if s ∈ q :: l then q :: l else q :: l ++ [s] := by
  by_cases hs : s ∈ l
  · rw [if_pos hs, if_pos (List.mem_cons_of_mem q hs)]
  · have hcons : s ∉ q :: l := by
      rw [List.mem_cons, not_or]
      exact ⟨hq.symm, hs⟩
    rw [if_neg hs, if_neg hcons, List.cons_append]

theorem nodup_appendNew (h : l.Nodup) : (if s ∈ l then l else l ++ [s]).Nodup := by
  split
  · exact h
  · next hs => exact List.nodup_append.2 ⟨h, List.nodup_singleton s, by
      rintro q hq _ hmem rfl
      exact hs (List.mem_singleton.1 hmem ▸ hq)⟩

end AppendNew

namespace WeightedStates

variable {seeds ws : WeightedStates S W} {s : S} {w : W}

theorem weigh_add (g : S → W) :
    weigh (add s w ws) g = weigh ws g + w * g s := by
  induction ws with
  | nil => simp [add]
  | cons e ws ih =>
    obtain ⟨q, v⟩ := e
    rw [add]
    split
    · next hq =>
      rw [weigh_cons, weigh_cons, eq_of_beq hq, add_mul, add_right_comm]
    · rw [weigh_cons, ih, weigh_cons, add_assoc]

theorem map_fst_add (s : S) (w : W) (ws : WeightedStates S W) : (add s w ws).map Prod.fst =
    if s ∈ ws.map Prod.fst then ws.map Prod.fst else ws.map Prod.fst ++ [s] := by
  induction ws with
  | nil => rfl
  | cons e ws ih =>
    obtain ⟨q, v⟩ := e
    rw [add]
    by_cases hq : q = s
    · simp [hq]
    · rw [if_neg (by simpa using hq), List.map_cons, ih]
      exact cons_appendNew hq

theorem nodup_add (h : (ws.map Prod.fst).Nodup) : ((add s w ws).map Prod.fst).Nodup := by
  rw [map_fst_add]
  exact nodup_appendNew h

/-- Collecting keeps the sums, and lists every state once. -/
theorem collect_spec (seeds : WeightedStates S W) : (seeds.collect.map Prod.fst).Nodup ∧
    (∀ s ∈ seeds.collect.map Prod.fst, s ∈ seeds.map Prod.fst) ∧
      ∀ g, weigh seeds.collect g = weigh seeds g := by
  have hfold (ws : WeightedStates S W) (hws : (ws.map Prod.fst).Nodup) :
      ((seeds.foldl (fun sums e => add e.1 e.2 sums) ws).map Prod.fst).Nodup ∧
        (∀ s ∈ (seeds.foldl (fun sums e => add e.1 e.2 sums) ws).map Prod.fst,
          s ∈ ws.map Prod.fst ∨ s ∈ seeds.map Prod.fst) ∧
        ∀ g, weigh (seeds.foldl (fun sums e => add e.1 e.2 sums) ws) g =
          weigh ws g + weigh seeds g := by
    induction seeds generalizing ws with
    | nil => exact ⟨hws, fun s hs => .inl hs, fun g => by simp⟩
    | cons e seeds ih =>
      obtain ⟨hnodup, hmem, hsum⟩ := ih (add e.1 e.2 ws) (nodup_add hws)
      refine ⟨hnodup, fun s hs => ?_, fun g => ?_⟩
      · rcases hmem s hs with hs | hs
        · rw [map_fst_add] at hs
          split at hs
          · exact .inl hs
          · rcases List.mem_append.1 hs with hs | hs
            · exact .inl hs
            · exact .inr (by simp [List.mem_singleton.1 hs])
        · exact .inr (List.mem_cons_of_mem _ hs)
      · rw [List.foldl_cons, hsum, weigh_add, weigh_cons, add_assoc]
  obtain ⟨hnodup, hmem, hsum⟩ := hfold [] List.nodup_nil
  refine ⟨hnodup, fun s hs => ?_, fun g => ?_⟩
  · exact (hmem s hs).resolve_left List.not_mem_nil
  · rw [collect, hsum, weigh_nil, zero_add]

theorem weightOf_of_mem (h : (ws.map Prod.fst).Nodup) (he : (s, w) ∈ ws) : ws.weightOf s = w := by
  induction ws with
  | nil => cases he
  | cons e ws ih =>
    obtain ⟨q, v⟩ := e
    rw [List.map_cons, List.nodup_cons] at h
    rcases List.mem_cons.1 he with heq | he
    · cases heq
      simp [weightOf]
    · have hne : s ≠ q := fun heq => h.1 (heq ▸ List.mem_map.2 ⟨_, he, rfl⟩)
      have hsq : (s == q) = false := by simpa using hne
      rw [weightOf, List.lookup_cons, hsq]
      exact ih h.2 he

theorem weightOf_of_notMem (h : s ∉ ws.map Prod.fst) : ws.weightOf s = 0 := by
  rw [weightOf, List.lookup_eq_none_iff.2 fun e he => ?_]
  · rfl
  · have hne : s ≠ e.1 := fun heq => h (heq ▸ List.mem_map.2 ⟨e, he, rfl⟩)
    simpa using hne

end WeightedStates

namespace Automaton

open WeightedStates

variable {A : Automaton Id L S T W} {R : S → Prop} {closure : S → ℕ} [BEq W] [LawfulBEq W]
variable {seeds : WeightedStates S W}

omit [LawfulBEq S] [LawfulBEq W] in
theorem starts_epsilonPart (seeds : WeightedStates S W) : (A.epsilonPart seeds).starts =
    (seeds.filter fun e => !e.2 == 0).map Prod.fst := rfl

theorem lawful_epsilonPart (hA : A.Lawful) (hnodup : (seeds.map Prod.fst).Nodup) :
    (A.epsilonPart seeds).Lawful where
  starts_nodup := hnodup.sublist (List.filter_sublist.map Prod.fst)
  mem_starts s := by
    change s ∈ (seeds.filter fun e => !e.2 == 0).map Prod.fst ↔ seeds.weightOf s ≠ 0
    constructor
    · intro hs
      obtain ⟨⟨q, w⟩, he, rfl⟩ := List.mem_map.1 hs
      obtain ⟨he, hw⟩ := List.mem_filter.1 he
      rw [weightOf_of_mem hnodup he]
      simpa using hw
    · intro hne
      by_cases hs : s ∈ seeds.map Prod.fst
      · obtain ⟨⟨q, w⟩, he, rfl⟩ := List.mem_map.1 hs
        rw [weightOf_of_mem hnodup he] at hne
        exact List.mem_map.2 ⟨_, List.mem_filter.2 ⟨he, by simpa using hne⟩, rfl⟩
      · exact absurd (weightOf_of_notMem hs) hne
  source_eq s t ht := hA.source_eq s t (List.mem_filter.1 ht).1

theorem weigh_starts_epsilonPart (hnodup : (seeds.map Prod.fst).Nodup) (g : S → W) :
    ((A.epsilonPart seeds).starts.map fun s => (A.epsilonPart seeds).entry s * g s).sum =
      weigh seeds g := by
  have hentry : ∀ e ∈ seeds, seeds.weightOf e.1 = e.2 := fun e he => weightOf_of_mem hnodup he
  rw [starts_epsilonPart, List.map_map, sum_map_filter, weigh]
  congr 1
  apply List.map_congr_left
  intro e he
  change (if (!e.2 == 0) = true then seeds.weightOf e.1 * g e.1 else 0) = _
  rw [hentry e he]
  by_cases hz : e.2 = 0
  · simp [hz]
  · simp [hz]

variable [Monad m] [LawfulMonad m] [StepLimited m] [Hashable S] {B : Automaton m L S T W}

omit [StepLimited m] [Hashable S] [LawfulBEq W] [LawfulBEq S] in
theorem Answers.epsilonPart (h : B.Answers A R) (hseeds : ∀ s ∈ (A.epsilonPart seeds).starts, R s) :
    (B.epsilonPart seeds).Answers (A.epsilonPart seeds) R where
  closed := closed_epsilonPart seeds h.closed
  starts := hseeds
  initialStates := rfl
  outgoing s hs := by
    change (do return (← B.outgoing s).filter fun t => (B.label t).isNone) = _
    rw [h.outgoing s hs, pure_bind, h.label]
    rfl
  initialWeight _ _ := rfl
  finalWeight := h.finalWeight
  weight s hs t ht := h.weight s hs t (List.mem_filter.1 ht).1
  source := h.source
  target := h.target
  label := rfl
  order := h.order

/-- Within the budget, the closures that `B` computes of states of `A` list no state twice and have
the sums over the paths without labels. -/
def Closes (B : Automaton m L S T W) (A : Automaton Id L S T W) (closure : S → ℕ) (budget : ℕ) :
    Prop :=
  ∀ seeds : WeightedStates S W, (∀ e ∈ seeds, A.Reachable e.1) → ∃ closed : WeightedStates S W,
    (closed.map Prod.fst).Nodup ∧ (∀ e ∈ closed, A.Reachable e.1) ∧
      (∀ g, weigh closed g = weigh seeds (A.closing closure g)) ∧
        B.epsilonClosure budget seeds = pure closed

omit [LawfulBEq W] [Hashable S] in
theorem mem_starts_epsilonPart_collect {s : S} (hs : s ∈ (A.epsilonPart seeds.collect).starts) :
    s ∈ seeds.map Prod.fst := by
  rw [starts_epsilonPart] at hs
  obtain ⟨e, he, rfl⟩ := List.mem_map.1 hs
  exact (collect_spec seeds).2.1 e.1 (List.mem_map.2 ⟨e, (List.mem_filter.1 he).1, rfl⟩)

section Weighed

variable {d : Distances S W} {s : S} {e : S × W} {states : List S}

/-- A state with its distance, unless that is zero. -/
def weighed? (d : Distances S W) (s : S) : Option (S × W) := do
  let w ← d[s]?
  if w == 0 then none else some (s, w)

omit [LawfulBEq S] in
theorem of_weighed (he : weighed? d s = some e) : e.1 = s ∧ e.2 ≠ 0 := by
  obtain ⟨w, -, he⟩ := Option.bind_eq_some_iff.1 he
  split at he
  · cases he
  · next hz =>
    cases he
    exact ⟨rfl, by simpa using hz⟩

omit [LawfulBEq S] in
theorem nodup_weighed (h : states.Nodup) :
    ((states.filterMap (weighed? d)).map Prod.fst).Nodup := by
  refine List.pairwise_map.2 (List.pairwise_filterMap.2 (h.imp fun hne e he e' he' => ?_))
  rwa [(of_weighed he).1, (of_weighed he').1]

theorem weigh_weighed (g : S → W) : weigh (states.filterMap (weighed? d)) g =
    (states.map fun s => d.getD s 0 * g s).sum := by
  rw [weigh, sum_map_filterMap]
  congr 1
  apply List.map_congr_left
  intro s _
  rw [Std.HashMap.getD_eq_getD_getElem?]
  cases hds : d[s]? with
  | none => simp [weighed?, hds]
  | some w =>
    by_cases hz : w = 0
    · simp [weighed?, hds, hz]
    · simp [weighed?, hds, hz]

end Weighed

omit [LawfulBEq W] [Hashable S] in
theorem forall_starts_epsilonPart_collect (hseeds : ∀ e ∈ seeds, R e.1) :
    ∀ s ∈ (A.epsilonPart seeds.collect).starts, R s := by
  intro s hs
  obtain ⟨e, he, rfl⟩ := List.mem_map.1 (mem_starts_epsilonPart_collect hs)
  exact hseeds e he

/-- Where what the seeds reach without labels is bounded, their closure has the sums over the paths
without labels, and leaves out what is zero. -/
theorem Answers.epsilonClosure_eq (h : B.Answers A R) (hA : A.Lawful)
    (hseeds : ∀ e ∈ seeds, R e.1) (hb : (A.epsilonPart seeds.collect).Bounded
      (A.epsilonPart seeds.collect).Reachable closure) : ∃ closed : WeightedStates S W,
    (closed.map Prod.fst).Nodup ∧ (∀ e ∈ closed, R e.1 ∧ e.2 ≠ 0) ∧
      (∀ g, weigh closed g = weigh seeds (A.closing closure g)) ∧
        ∀ budget, ((A.epsilonPart seeds.collect).starts.map closure).sum + 1 < budget →
          B.epsilonClosure budget seeds = pure closed := by
  classical
  obtain ⟨hnodup, -, hsum⟩ := collect_spec seeds
  have hpart := h.epsilonPart (forall_starts_epsilonPart_collect hseeds)
  have hlawful := lawful_epsilonPart hA hnodup
  obtain ⟨d, ws, hd, hws, hrun⟩ :=
    hpart.toReachable.distancesFromInitial_eq hlawful hb .topological
  obtain ⟨states, hstates, hmem', hrun'⟩ := hpart.states_eq hb.atMost
  refine ⟨states.filterMap (weighed? d), nodup_weighed hstates, fun e he => ?_, fun g => ?_,
    fun budget hbudget => ?_⟩
  · obtain ⟨s, hs, he⟩ := List.mem_filterMap.1 he
    obtain ⟨rfl, hne⟩ := of_weighed he
    exact ⟨hpart.reachable ((hmem' e.1).1 hs), hne⟩
  · have hinside : ∀ e ∈ ws, e.1 ∈ states.toFinset := fun e he => by
      rw [List.mem_toFinset, hmem']
      exact hd.inside e he
    rw [weigh_weighed, ← hsum, ← weigh_starts_epsilonPart hnodup]
    refine Eq.trans ?_ (hws g)
    rw [weigh_eq_sum_indicator g ws hinside, List.sum_toFinset _ hstates]
    simp only [hd.getD_eq]
  · unfold epsilonClosure Solver.default
    simp only [hrun budget (by omega), hrun' budget (by omega), pure_bind]
    rfl

/-- Among finitely many states one budget is enough for all seeds. -/
theorem Answers.exists_epsilonClosure_eq (h : B.Answers A R) (hA : A.Lawful)
    (hfinite : {s | R s}.Finite) (hc : (A.epsilonPart []).Bounded R closure) :
    ∃ n, ∀ seeds : WeightedStates S W, (∀ e ∈ seeds, R e.1) → ∃ closed : WeightedStates S W,
      (closed.map Prod.fst).Nodup ∧ (∀ e ∈ closed, R e.1 ∧ e.2 ≠ 0) ∧
        (∀ g, weigh closed g = weigh seeds (A.closing closure g)) ∧
          ∀ budget, n ≤ budget → B.epsilonClosure budget seeds = pure closed := by
  classical
  refine ⟨(∑ s ∈ hfinite.toFinset, closure s) + 2, fun seeds hseeds => ?_⟩
  have hstarts : ∀ s ∈ (A.epsilonPart seeds.collect).starts, R s :=
    forall_starts_epsilonPart_collect hseeds
  have hbounded : (A.epsilonPart seeds.collect).Bounded
      (A.epsilonPart seeds.collect).Reachable closure :=
    ⟨closed_reachable _, fun s hs => hc.sum_lt s ((h.epsilonPart hstarts).reachable hs)⟩
  obtain ⟨closed, hnodup, hkept, hsum, hrun⟩ := h.epsilonClosure_eq hA hseeds hbounded
  refine ⟨closed, hnodup, hkept, hsum, fun budget hbudget => hrun budget ?_⟩
  have hstarts' : ((A.epsilonPart seeds.collect).starts.map closure).sum ≤
      ∑ s ∈ hfinite.toFinset, closure s := by
    rw [← List.sum_toFinset closure (lawful_epsilonPart hA (collect_spec seeds).1).starts_nodup]
    exact Finset.sum_le_sum_of_subset fun s hs =>
      hfinite.mem_toFinset.2 (hstarts s (List.mem_toFinset.1 hs))
  omega

theorem Answers.exists_closes (h : B.Answers A A.Reachable) (hA : A.Lawful)
    (hfinite : {s | A.Reachable s}.Finite)
    (hc : (A.epsilonPart []).Bounded A.Reachable closure) :
    ∃ n, ∀ budget, n ≤ budget → B.Closes A closure budget := by
  obtain ⟨n, hn⟩ := h.exists_epsilonClosure_eq hA hfinite hc
  refine ⟨n, fun budget hbudget seeds hseeds => ?_⟩
  obtain ⟨closed, hnodup, hkept, hsum, hrun⟩ := hn seeds hseeds
  exact ⟨closed, hnodup, fun e he => (hkept e he).1, hsum, hrun budget hbudget⟩

end Automaton

end WeightedAutomata
