import WeightedAutomata.Proofs.Answered
import WeightedAutomata.Proofs.Determinization.Consistency
import WeightedAutomata.Proofs.Steady.Views

/-!
Determinizations of automata with lasting answers have lasting answers.
-/
namespace WeightedAutomata

variable {σ L S T W : Type}

section Both

variable {M₁ M₂ α β : Type}

theorem run_onBoth_bind (x : StateT M₁ (StateT M₂ Option) α) (f : α → StateT M₁ (StateT M₂ Option) β)
    (μ : M₁ × M₂) : (onBoth (x >>= f)).run μ =
      (onBoth x).run μ >>= fun answer => (onBoth (f answer.1)).run answer.2 :=
  congrFun (Translation.both.bind x f) μ

theorem onBoth_lift (x : StateT M₂ Option α) :
    onBoth (StateT.lift x : StateT M₁ (StateT M₂ Option) α) = onSecond x := by
  funext μ
  change ((x μ.2).bind fun r => some ((r.1, μ.1), r.2)).map _ = (x μ.2).map _
  cases x μ.2 <;> rfl

end Both

namespace Automaton

/-- The initial states with their weights. -/
def weightedStarts {m : Type → Type} [Monad m] (A : Automaton m L S T W) : m (WeightedStates S W) :=
  do (← A.initialStates).mapM fun s => return (s, ← A.initialWeight s)

theorem hoist_weightedStarts {m n : Type → Type} [Monad m] [Monad n] [StepLimited m] [StepLimited n]
    (φ : Translation m n) (A : Automaton m L S T W) :
    (A.hoist φ.map).weightedStarts = φ.map A.weightedStarts := by
  simp only [weightedStarts, φ.bind, φ.mapM, φ.pure]
  rfl

theorem weightedStarts_known {A : Automaton Option L S T W} {K : S → Prop}
    (hstart : ∀ ss ∈ A.initialStates, ∀ s ∈ ss, K s) {seeds : WeightedStates S W}
    (h : A.weightedStarts = some seeds) : ∀ e ∈ seeds, K e.1 := by
  obtain ⟨ss, hss, h⟩ := Option.bind_eq_some_iff.1 h
  obtain ⟨-, rfl⟩ := mapM_eq_some.1 h
  intro e he
  obtain ⟨s, hs, he⟩ := List.mem_filterMap.1 he
  obtain ⟨w, -, he⟩ := Option.bind_eq_some_iff.1 he
  cases he
  exact hstart ss hss s hs

section Subsets

variable [BEq S] [LawfulBEq S] [Hashable S] [Semiring W] [BEq W] {A : Automaton Option L S T W}
variable {K : S → Prop} (hstep : ∀ s, K s → ∀ ts ∈ A.outgoing s, ∀ t ∈ ts, K (A.target t))
include hstep

/-- Closures stay among states that epsilon transitions lead to. -/
theorem epsilonClosure_known {budget : ℕ} {seeds closed : WeightedStates S W}
    (hseeds : ∀ e ∈ seeds, K e.1) (h : A.epsilonClosure budget seeds = some closed) :
    ∀ e ∈ closed, K e.1 := by
  obtain ⟨d, -, h⟩ := Option.bind_eq_some_iff.1 h
  obtain ⟨states, hstates, h⟩ := Option.bind_eq_some_iff.1 h
  obtain rfl := Option.some.inj h
  intro e he
  obtain ⟨s, hs, hfound⟩ := List.mem_filterMap.1 he
  obtain ⟨w, -, hfound⟩ := Option.bind_eq_some_iff.1 hfound
  obtain ⟨-, rfl⟩ : ¬(w == 0) = true ∧ (s, w) = e := by simpa using hfound
  refine Reachable.answered_induction ?_ ?_ (((states_answered hstates).2 s).1 hs)
  · rintro _ ⟨⟩ q hq
    obtain ⟨e, he, rfl⟩ := List.mem_map.1 hq
    obtain ⟨e', he', heq⟩ := List.mem_map.1 ((WeightedStates.collect_spec seeds).2.1 e.1
      (List.mem_map_of_mem (List.mem_filter.1 he).1))
    rw [← heq]
    exact hseeds e' he'
  · intro q hq ts hts t ht
    obtain ⟨us, hus, heq⟩ := Option.bind_eq_some_iff.1 hts
    obtain rfl := Option.some.inj heq
    exact hstep q hq us hus t (List.mem_filter.1 ht).1


omit hstep [LawfulBEq S] [Hashable S] [BEq S] [Semiring W] [BEq W] in
theorem addSeed_known [BEq L] (label : L) {seed : S × W} (hseed : K seed.1)
    {groups : List (L × WeightedStates S W)} (hgroups : ∀ g ∈ groups, ∀ e ∈ g.2, K e.1) :
    ∀ g ∈ addSeed label seed groups, ∀ e ∈ g.2, K e.1 := by
  induction groups with
  | nil =>
    intro g hg e he
    obtain rfl := List.mem_singleton.1 hg
    rwa [List.mem_singleton.1 he]
  | cons g groups ih =>
    rw [List.forall_mem_cons] at hgroups
    rw [addSeed]
    split
    · refine List.forall_mem_cons.2 ⟨fun e he => ?_, hgroups.2⟩
      rcases List.mem_append.1 he with he | he
      · exact hgroups.1 e he
      · rwa [List.mem_singleton.1 he]
    · exact List.forall_mem_cons.2 ⟨hgroups.1, ih hgroups.2⟩

omit [BEq S] [LawfulBEq S] [Hashable S] in
/-- The seeds that a subset leads to are known. -/
theorem successors_known [BEq L] {subset : WeightedStates S W}
    {groups : List (L × WeightedStates S W)} (hsubset : ∀ e ∈ subset, K e.1)
    (h : A.successors subset = some groups) : ∀ g ∈ groups, ∀ e ∈ g.2, K e.1 := by
  suffices hall : Ensures (A.successors subset) fun groups => ∀ g ∈ groups, ∀ e ∈ g.2, K e.1 from
    ensures_option.1 hall groups h
  refine .foldlM (fun e he groups hgroups => ?_) nofun
  obtain ⟨s, residual⟩ := e
  refine Ensures.bind (ensures_option.2 fun ts hts => hstep s (hsubset _ he) ts hts) fun ts hts => ?_
  refine .foldlM (fun t ht groups hgroups => ?_) hgroups
  cases A.label t with
  | none => exact .pure hgroups
  | some label =>
    refine Ensures.bind (.of_forall (p := fun _ => True) _ fun _ => trivial) fun w _ => .pure ?_
    split
    · exact hgroups
    · exact addSeed_known label (hts t ht) hgroups

end Subsets

section Steadies

variable [BEq S] [LawfulBEq S] [Hashable S] [Semiring W] [BEq W] {r : Regime σ}
variable {A : Automaton (StateT σ Option) L S T W} {K : σ → S → Prop}
variable {V : Automaton (Steady r) L S T W} (h : Steadies A K V) {s s' : σ} (hs : r.Sound s)
include h hs

theorem Steadies.epsilonClosure_known {budget : ℕ} {seeds closed : WeightedStates S W}
    (hseeds : ∀ e ∈ seeds, K s e.1)
    (hrun : (A.epsilonClosure budget seeds).run s = some (closed, s')) :
    r.Sound s' ∧ r.Later s s' ∧ ∀ e ∈ closed, K s' e.1 := by
  have hask : A.epsilonClosure budget seeds = (V.epsilonClosure budget seeds).ask := by
    obtain ⟨f, rfl⟩ := h.exists_final
    exact hoist_epsilonClosure Steady.asking V budget seeds
  rw [hask] at hrun
  obtain ⟨hs', hlater, hrecall⟩ := (V.epsilonClosure budget seeds).recalling_run hs hrun
  rw [← hoist_epsilonClosure] at hrecall
  exact ⟨hs', hlater, Automaton.epsilonClosure_known (h.honours s' hs').forward.far_known
    (fun e he => h.later hlater (hseeds e he)) hrecall⟩

omit [BEq S] [LawfulBEq S] [Hashable S] in
theorem Steadies.successors_known [BEq L] {subset : WeightedStates S W}
    {groups : List (L × WeightedStates S W)} (hsubset : ∀ e ∈ subset, K s e.1)
    (hrun : (A.successors subset).run s = some (groups, s')) :
    r.Sound s' ∧ r.Later s s' ∧ ∀ g ∈ groups, ∀ e ∈ g.2, K s' e.1 := by
  have hask : A.successors subset = (V.successors subset).ask := by
    obtain ⟨f, rfl⟩ := h.exists_final
    exact hoist_successors Steady.asking V subset
  rw [hask] at hrun
  obtain ⟨hs', hlater, hrecall⟩ := (V.successors subset).recalling_run hs hrun
  rw [← hoist_successors] at hrecall
  exact ⟨hs', hlater, Automaton.successors_known (h.honours s' hs').forward.far_known
    (fun e he => h.later hlater (hsubset e he)) hrecall⟩

omit [BEq S] [LawfulBEq S] [Hashable S] [BEq W] in
theorem Steadies.weightedStarts_known {seeds : WeightedStates S W}
    (hrun : A.weightedStarts.run s = some (seeds, s')) :
    r.Sound s' ∧ r.Later s s' ∧ ∀ e ∈ seeds, K s' e.1 := by
  have hask : A.weightedStarts = V.weightedStarts.ask := by
    obtain ⟨f, rfl⟩ := h.exists_final
    exact hoist_weightedStarts Steady.asking V
  rw [hask] at hrun
  obtain ⟨hs', hlater, hrecall⟩ := V.weightedStarts.recalling_run hs hrun
  rw [← hoist_weightedStarts] at hrecall
  exact ⟨hs', hlater, Automaton.weightedStarts_known (h.honours s' hs').forward.known hrecall⟩

end Steadies

/-- What a determinization remembers on top of the memory of its operand. -/
structure Stocked [Zero W] (r : Regime σ) (K : σ → S → Prop) (μ : SubsetMemory L S W × σ) : Prop where
  sound : r.Sound μ.2
  known : ∀ i, ∀ e ∈ μ.1.subset i, K μ.2 e.1
  explored : ∀ (i : ℕ) ts, μ.1.explored[i]? = some ts →
    ∀ t ∈ ts, t.source = i ∧ t.target < μ.1.subsets.size
  start : ∀ p, μ.1.start = some (some p) → p.1 < μ.1.subsets.size ∧ p.2 ≠ 0

/-- A memory from which another one has come about without new answers about states. -/
structure Restocks [Zero W] (r : Regime σ) (K : σ → S → Prop) (μ ν : SubsetMemory L S W × σ) :
    Prop where
  stocked : Stocked r K ν
  extends_to : μ.1.Extends ν.1
  later : r.Later μ.2 ν.2
  explored : ν.1.explored = μ.1.explored
  start : ν.1.start = μ.1.start

/-- Where a closure settles. -/
def settled [Zero W] [Add W] [Mul W] [BEq S] [BEq W] [PartialInverse W] (μ : SubsetMemory L S W)
    (closed : WeightedStates S W) : Option (ℕ × W) × SubsetMemory L S W :=
  let total := Weight.sum (closed.map (·.2))
  if total == 0 then (none, μ)
  else
    match PartialInverse.inverse total with
    | .error e => (none, μ.recordFailure e)
    | .ok inverse =>
      let (i, ν) := μ.intern (closed.map fun (s, w) => (s, inverse * w))
      (some (i, total), ν)

theorem settle_run {m : Type → Type} [Monad m] [LawfulMonad m] [StepLimited m] [Zero W] [One W]
    [Add W] [Mul W] [BEq S] [Hashable S] [BEq W] [PartialInverse W] (A : Automaton m L S T W)
    (budget : ℕ) (seeds : WeightedStates S W) (μ : SubsetMemory L S W) :
    (A.settle budget seeds).run μ =
      A.epsilonClosure budget seeds >>= fun closed => pure (settled μ closed) := by
  simp only [settle, StateT.run_bind, StateT.run_lift, bind_assoc, pure_bind]
  refine bind_congr fun closed => ?_
  dsimp only [settled]
  split
  · simp
  · cases PartialInverse.inverse (Weight.sum (closed.map (·.2))) <;> simp

section Stocked

variable [Semiring W] {r : Regime σ} {K : σ → S → Prop} {μ ν ξ : SubsetMemory L S W × σ}

theorem Restocks.refl (h : Stocked r K μ) : Restocks r K μ μ :=
  ⟨h, .refl μ.1, r.refl μ.2, rfl, rfl⟩

theorem Restocks.trans (h : Restocks r K μ ν) (h' : Restocks r K ν ξ) : Restocks r K μ ξ where
  stocked := h'.stocked
  extends_to := h.extends_to.trans h'.extends_to
  later := r.trans h.later h'.later
  explored := h'.explored.trans h.explored
  start := h'.start.trans h.start

/-- More subsets of known states. -/
theorem Stocked.restocks (h : Stocked r K μ) {m : SubsetMemory L S W} {s : σ} (hs : r.Sound s)
    (hlater : r.Later μ.2 s) (hext : μ.1.Extends m) (hknown : ∀ i, ∀ e ∈ m.subset i, K s e.1)
    (hexplored : m.explored = μ.1.explored) (hstart : m.start = μ.1.start) :
    Restocks r K μ (m, s) where
  stocked :=
    { sound := hs
      known := hknown
      explored := fun i ts hi t ht => by
        obtain ⟨hsource, hlt⟩ := h.explored i ts (hexplored ▸ hi) t ht
        exact ⟨hsource, hlt.trans_le hext.size_le⟩
      start := fun p hp => by
        obtain ⟨hlt, hne⟩ := h.start p (hstart ▸ hp)
        exact ⟨hlt.trans_le hext.size_le, hne⟩ }
  extends_to := hext
  later := hlater
  explored := hexplored
  start := hstart

theorem Restocks.of_later (h : Stocked r K μ)
    (hK : ∀ {s s'}, r.Later s s' → ∀ {q}, K s q → K s' q) {s : σ} (hs : r.Sound s)
    (hlater : r.Later μ.2 s) : Restocks r K μ (μ.1, s) :=
  h.restocks hs hlater (.refl μ.1) (fun i e he => hK hlater (h.known i e he)) rfl rfl

variable [BEq S] [BEq W]

theorem Stocked.restocks_intern (h : Stocked r K μ) {subset : WeightedStates S W}
    (hsubset : ∀ e ∈ subset, K μ.2 e.1) : Restocks r K μ ((μ.1.intern subset).2, μ.2) := by
  obtain ⟨hext, -, heq⟩ := μ.1.extends_intern subset
  rcases heq with heq | heq
  · rw [heq]
    exact .refl h
  · refine h.restocks h.sound (r.refl _) hext (fun i e he => ?_) (by rw [heq]) (by rw [heq])
    rw [heq, SubsetMemory.subset_push] at he
    split at he
    · exact hsubset e he
    · exact h.known i e he

variable [LawfulBEq S] [LawfulBEq W] [Hashable S] [PartialInverse W]
variable {A : Automaton (StateT σ Option) L S T W} {V : Automaton (Steady r) L S T W}
variable (hA : Steadies A K V) {budget : ℕ}
include hA

/-- Seeds settle nowhere, or to a subset with a weight other than zero. -/
theorem Stocked.settle (h : Stocked r K μ) {seeds : WeightedStates S W}
    (hseeds : ∀ e ∈ seeds, K μ.2 e.1) {p : Option (ℕ × W)}
    (hrun : (onBoth (A.settle budget seeds)).run μ = some (p, ν)) :
    Restocks r K μ ν ∧ ∀ q ∈ p, q.1 < ν.1.subsets.size ∧ q.2 ≠ 0 := by
  obtain ⟨m, s⟩ := μ
  obtain ⟨⟨⟨p, m'⟩, s'⟩, hsettle, heq⟩ := Option.map_eq_some_iff.1 hrun
  cases heq
  obtain ⟨⟨closed, s₁⟩, hclosure, hsettled⟩ :=
    Option.bind_eq_some_iff.1 ((congrFun (A.settle_run budget seeds m) s).symm.trans hsettle)
  obtain ⟨hs₁, hlater, hknown⟩ := hA.epsilonClosure_known h.sound hseeds hclosure
  have hsame := Restocks.of_later h hA.later hs₁ hlater
  obtain ⟨heq, rfl⟩ : settled m closed = (p, m') ∧ s₁ = s' :=
    Prod.mk.inj (Option.some.inj hsettled)
  by_cases hz : Weight.sum (closed.map (·.2)) = 0
  · have hnone : settled m closed = (none, m) := by simp [settled, hz]
    cases hnone.symm.trans heq
    exact ⟨hsame, nofun⟩
  cases hinverse : PartialInverse.inverse (Weight.sum (closed.map (·.2))) with
  | error e =>
    have hnone : settled m closed = (none, m.recordFailure e) := by simp [settled, hz, hinverse]
    cases hnone.symm.trans heq
    exact ⟨hsame.trans (hsame.stocked.restocks hs₁ (r.refl _) (m.extends_recordFailure e)
      hsame.stocked.known rfl rfl), nofun⟩
  | ok b =>
    let subset : WeightedStates S W := closed.map fun (s, w) => (s, b * w)
    have hsome : settled m closed =
        (some ((m.intern subset).1, Weight.sum (closed.map (·.2))), (m.intern subset).2) := by
      simp [settled, hz, hinverse, subset]
    cases hsome.symm.trans heq
    refine ⟨hsame.trans (hsame.stocked.restocks_intern fun e he => ?_), ?_⟩
    · obtain ⟨e', he', rfl⟩ := List.mem_map.1 he
      exact hknown e' he'
    · rintro q ⟨⟩
      exact ⟨(m.extends_intern subset).2.1, hz⟩

theorem Stocked.settle_groups (h : Stocked r K μ) (i : ℕ) {groups : List (L × WeightedStates S W)}
    (hgroups : ∀ g ∈ groups, ∀ e ∈ g.2, K μ.2 e.1) {ts : List (SubsetTransition L W)}
    (hrun : (onBoth (groups.filterMapM fun (label, seeds) => do
      return (← A.settle budget seeds).map fun (target, weight) =>
        (⟨i, target, label, weight⟩ : SubsetTransition L W))).run μ = some (ts, ν)) :
    Restocks r K μ ν ∧ ∀ t ∈ ts, t.source = i ∧ t.target < ν.1.subsets.size := by
  replace hrun := (congrArg (StateT.run · μ) (Translation.both.filterMapM _ groups)).symm.trans hrun
  induction groups generalizing μ ts with
  | nil =>
    cases hrun
    exact ⟨.refl h, nofun⟩
  | cons g groups ih =>
    obtain ⟨label, seeds⟩ := g
    rw [List.forall_mem_cons] at hgroups
    rw [run_filterMapM_cons] at hrun
    obtain ⟨⟨o, ξ⟩, hfirst, hrun⟩ := Option.bind_eq_some_iff.1 hrun
    obtain ⟨⟨us, ν'⟩, hus, hrun⟩ := Option.bind_eq_some_iff.1 hrun
    cases hrun
    obtain ⟨⟨p, ξ'⟩, hsettle, hfirst⟩ :=
      Option.bind_eq_some_iff.1 ((run_onBoth_bind _ _ _).symm.trans hfirst)
    cases hfirst
    obtain ⟨hfound, hp⟩ := h.settle hA hgroups.1 hsettle
    obtain ⟨hrest, hall⟩ := ih hfound.stocked
      (fun g hg e he => hA.later hfound.later (hgroups.2 g hg e he)) hus
    refine ⟨hfound.trans hrest, fun t ht => ?_⟩
    rcases List.mem_append.1 ht with ht | ht
    · obtain ⟨q, hq, rfl⟩ := Option.map_eq_some_iff.1 (Option.mem_toList.1 ht)
      exact ⟨rfl, (hp q hq).1.trans_le hrest.extends_to.size_le⟩
    · exact hall t ht

theorem Stocked.expand [BEq L] (h : Stocked r K μ) {i : ℕ} {ts : List (SubsetTransition L W)}
    (hrun : (onBoth (A.expand budget i)).run μ = some (ts, ν)) :
    Restocks r K μ ν ∧ ∀ t ∈ ts, t.source = i ∧ t.target < ν.1.subsets.size := by
  obtain ⟨m, s⟩ := μ
  unfold Automaton.expand at hrun
  obtain ⟨⟨_, _⟩, hget, hrun⟩ := Option.bind_eq_some_iff.1 ((run_onBoth_bind _ _ _).symm.trans hrun)
  cases hget
  obtain ⟨⟨groups, m', s'⟩, hgroups, hrun⟩ :=
    Option.bind_eq_some_iff.1 ((run_onBoth_bind _ _ _).symm.trans hrun)
  rw [onBoth_lift] at hgroups
  obtain ⟨⟨_, _⟩, hgroups, heq⟩ := Option.map_eq_some_iff.1 hgroups
  cases heq
  obtain ⟨hs', hlater, hknown⟩ := hA.successors_known h.sound (h.known i) hgroups
  have hsame := Restocks.of_later h hA.later hs' hlater
  obtain ⟨hfound, hts⟩ := hsame.stocked.settle_groups hA i hknown hrun
  exact ⟨hsame.trans hfound, hts⟩

omit [LawfulBEq S] [LawfulBEq W] hA in
theorem startSubset_again {p : Option (ℕ × W)} (hstart : ξ.1.start = some p) :
    (onBoth (A.startSubset budget)).run ξ = some (p, ξ) := by
  have hget : (onBoth (get : Subsets (StateT σ Option) L S W _)).run ξ = some (ξ.1, ξ) := rfl
  unfold Automaton.startSubset
  rw [run_onBoth_bind, hget, Option.bind_eq_bind, Option.bind_some]
  simp only [hstart]
  rfl

/-- The start is settled when it is first asked for, and remembered. -/
theorem Stocked.startSubset (h : Stocked r K μ) {p : Option (ℕ × W)}
    (hrun : (onBoth (A.startSubset budget)).run μ = some (p, ν)) :
    Stocked r K ν ∧ μ.1.Extends ν.1 ∧ r.Later μ.2 ν.2 ∧ ν.1.start = some p := by
  cases hstart : μ.1.start with
  | some q =>
    rw [startSubset_again hstart] at hrun
    cases hrun
    exact ⟨h, .refl _, r.refl _, hstart⟩
  | none =>
    obtain ⟨m, s⟩ := μ
    unfold Automaton.startSubset at hrun
    obtain ⟨⟨_, _⟩, hget, hrun⟩ := Option.bind_eq_some_iff.1 ((run_onBoth_bind _ _ _).symm.trans hrun)
    cases hget
    change m.start = none at hstart
    simp only [hstart] at hrun
    obtain ⟨⟨seeds, m', s'⟩, hseeds, hrun⟩ :=
      Option.bind_eq_some_iff.1 ((run_onBoth_bind _ _ _).symm.trans hrun)
    rw [onBoth_lift] at hseeds
    obtain ⟨⟨_, _⟩, hseeds, heq⟩ := Option.map_eq_some_iff.1 hseeds
    cases heq
    obtain ⟨hs', hlater, hknown⟩ := hA.weightedStarts_known h.sound hseeds
    have hsame := Restocks.of_later h hA.later hs' hlater
    obtain ⟨⟨q, ξ⟩, hsettle, hrun⟩ :=
      Option.bind_eq_some_iff.1 ((run_onBoth_bind _ _ _).symm.trans hrun)
    obtain ⟨hfound, hq⟩ := hsame.stocked.settle hA hknown hsettle
    cases hrun
    have hall := hsame.trans hfound
    have hext := ξ.1.extends_set_start (hall.start.trans hstart) q
    refine ⟨⟨hall.stocked.sound, hall.stocked.known, hall.stocked.explored, ?_⟩,
      hall.extends_to.trans hext, hall.later, rfl⟩
    rintro p ⟨⟩
    exact hq p rfl

omit [LawfulBEq S] [LawfulBEq W] hA in
theorem outgoing_again [BEq L] {i : ℕ} {ts : List (SubsetTransition L W)}
    (hknown : ξ.1.explored[i]? = some ts) :
    (onBoth ((A.determinize budget).outgoing i)).run ξ = some (ts, ξ) := by
  have hget : (onBoth (get : Subsets (StateT σ Option) L S W _)).run ξ = some (ξ.1, ξ) := rfl
  unfold Automaton.determinize
  rw [run_onBoth_bind, hget, Option.bind_eq_bind, Option.bind_some]
  simp only [hknown]
  rfl

/-- A subset is expanded when its transitions are first asked for, and they are remembered. -/
theorem Stocked.outgoing [BEq L] (h : Stocked r K μ) {i : ℕ} {ts : List (SubsetTransition L W)}
    (hrun : (onBoth ((A.determinize budget).outgoing i)).run μ = some (ts, ν)) :
    Stocked r K ν ∧ μ.1.Extends ν.1 ∧ r.Later μ.2 ν.2 ∧ ν.1.explored[i]? = some ts := by
  cases hexplored : μ.1.explored[i]? with
  | some us =>
    rw [outgoing_again hexplored] at hrun
    cases hrun
    exact ⟨h, .refl _, r.refl _, hexplored⟩
  | none =>
    obtain ⟨m, s⟩ := μ
    unfold Automaton.determinize at hrun
    obtain ⟨⟨_, _⟩, hget, hrun⟩ := Option.bind_eq_some_iff.1 ((run_onBoth_bind _ _ _).symm.trans hrun)
    cases hget
    change m.explored[i]? = none at hexplored
    simp only [hexplored] at hrun
    obtain ⟨⟨us, ξ⟩, hexpand, hrun⟩ :=
      Option.bind_eq_some_iff.1 ((run_onBoth_bind _ _ _).symm.trans hrun)
    obtain ⟨hall, hus⟩ := h.expand hA hexpand
    cases hrun
    have hnew : ξ.1.explored[i]? = none := by rw [hall.explored, hexplored]
    have hext := ξ.1.extends_insert_explored hnew us
    refine ⟨⟨hall.stocked.sound, hall.stocked.known, fun j vs hj => ?_, hall.stocked.start⟩,
      hall.extends_to.trans hext, hall.later, by simp⟩
    rw [Std.HashMap.getElem?_insert] at hj
    split at hj
    · next heq =>
      rw [← eq_of_beq heq, ← Option.some.inj hj]
      exact hus
    · exact hall.stocked.explored j vs hj

end Stocked

/-- The memory of a determinization, on top of the memory of its operand. -/
def subsetRegime [Semiring W] (r : Regime σ) (K : σ → S → Prop) :
    Regime (SubsetMemory L S W × σ) where
  start := (.empty, r.start)
  Sound := Stocked r K
  Later μ ν := μ.1.Extends ν.1 ∧ r.Later μ.2 ν.2
  sound_start :=
    { sound := r.sound_start
      known := by simp [SubsetMemory.subset, SubsetMemory.empty]
      explored := by simp [SubsetMemory.empty]
      start := by simp [SubsetMemory.empty] }
  refl μ := ⟨.refl μ.1, r.refl μ.2⟩
  trans h h' := ⟨h.1.trans h'.1, r.trans h.2 h'.2⟩

section Determinize

variable [Semiring W] [BEq L] [BEq S] [LawfulBEq S] [Hashable S] [BEq W] [LawfulBEq W]
variable [PartialInverse W] {r : Regime σ} {K : σ → S → Prop}
variable {A : Automaton (StateT σ Option) L S T W} {V : Automaton (Steady r) L S T W}

/-- The weight with which a subset of the operand's states is final. -/
def subsetFinal (V : Automaton (Steady r) L S T W) (subset : WeightedStates S W) : Steady r W :=
  subset.foldlM (fun total (q, residual) => return total + residual * (← V.finalWeight q)) 0

/-- The final weight of a subset that has been found. -/
def foundFinal (V : Automaton (Steady r) L S T W) (i : ℕ) : StateT (SubsetMemory L S W × σ) Option W :=
  fun μ => if i < μ.1.subsets.size then onSecond (V.subsetFinal (μ.1.subset i)).ask μ else none

omit [BEq L] [BEq S] [LawfulBEq S] [Hashable S] [BEq W] [LawfulBEq W] [PartialInverse W] in
theorem run_foundFinal_eq_some {i : ℕ} {μ ν : SubsetMemory L S W × σ} {w : W} :
    (V.foundFinal i).run μ = some (w, ν) ↔ i < μ.1.subsets.size ∧
      ∃ s, (V.subsetFinal (μ.1.subset i)).ask.run μ.2 = some (w, s) ∧ (μ.1, s) = ν := by
  change (if i < μ.1.subsets.size then ((V.subsetFinal (μ.1.subset i)).ask.run μ.2).map _ else none) =
    some (w, ν) ↔ _
  rw [Option.ite_none_right_eq_some, Option.map_eq_some_iff]
  refine and_congr_right fun _ => ?_
  simp [Prod.ext_iff]

/-- The start of a determinization, as a query with a lasting answer. -/
def lastingStart (budget : ℕ) (h : Steadies A K V) :
    Steady (subsetRegime (L := L) (W := W) r K) (Option (ℕ × W)) where
  ask := onBoth (A.startSubset budget)
  keeps μ p ν hμ hrun := by
    obtain ⟨hν, hext, hlater, -⟩ := Stocked.startSubset h hμ hrun
    exact ⟨hν, hext, hlater⟩
  again μ p ν hμ hrun ξ hξ := by
    obtain ⟨-, -, -, hstart⟩ := Stocked.startSubset h hμ hrun
    exact startSubset_again (hξ.1.start p hstart)

/-- The queries of a determinization, as queries with lasting answers. Final weights are those of the
subsets that have been found. -/
def lastingSubsets (budget : ℕ) (h : Steadies A K V) :
    Automaton (Steady (subsetRegime (L := L) (W := W) r K)) L ℕ (SubsetTransition L W) W where
  initialStates := return (← lastingStart budget h).toList.map (·.1)
  outgoing i :=
    { ask := onBoth ((A.determinize budget).outgoing i)
      keeps := fun μ ts ν hμ hrun => by
        obtain ⟨hν, hext, hlater, -⟩ := Stocked.outgoing h hμ hrun
        exact ⟨hν, hext, hlater⟩
      again := fun μ ts ν hμ hrun ξ hξ => by
        obtain ⟨-, -, -, hknown⟩ := Stocked.outgoing h hμ hrun
        exact outgoing_again (hξ.1.explored i ts hknown) }
  initialWeight i := do
    match ← lastingStart budget h with
    | some (start, w) => return if start = i then w else 0
    | none => return 0
  finalWeight i :=
    { ask := V.foundFinal i
      keeps := fun μ w ν hμ hrun => by
        obtain ⟨-, s, hfinal, rfl⟩ := run_foundFinal_eq_some.1 hrun
        obtain ⟨hs, hlater⟩ := (V.subsetFinal (μ.1.subset i)).keeps _ _ _ hμ.sound hfinal
        have hsame := Restocks.of_later hμ h.later hs hlater
        exact ⟨hsame.stocked, hsame.extends_to, hsame.later⟩
      again := fun μ w ν hμ hrun ξ hξ => by
        obtain ⟨hi, s, hfinal, rfl⟩ := run_foundFinal_eq_some.1 hrun
        have hagain := (V.subsetFinal (μ.1.subset i)).again _ _ _ hμ.sound hfinal ξ.2 hξ.2
        rw [← hξ.1.subset_eq i hi] at hagain
        exact run_foundFinal_eq_some.2 ⟨hi.trans_le hξ.1.size_le, _, hagain, rfl⟩ }
  weight t := pure t.weight
  source := SubsetTransition.source
  target := SubsetTransition.target
  label t := some t.label

omit [LawfulBEq S] [LawfulBEq W] in
theorem run_finalWeight (budget i : ℕ) (μ : SubsetMemory L S W × σ) :
    (onBoth ((A.determinize budget).finalWeight i)).run μ = (onSecond ((μ.1.subset i).foldlM
      (fun total (q, residual) => return total + residual * (← A.finalWeight q)) 0)).run μ := by
  unfold Automaton.determinize
  rw [run_onBoth_bind]
  change (Translation.both.map ((μ.1.subset i).foldlM _ 0)).run μ = (Translation.second.map _).run μ
  rw [Translation.both.foldlM, Translation.second.foldlM]
  congr 2
  funext total e
  obtain ⟨q, residual⟩ := e
  refine (Translation.both.bind _ _).trans (.trans ?_ (Translation.second.bind _ _).symm)
  exact congrArg (· >>= fun w => pure (total + residual * w)) (onBoth_lift (A.finalWeight q))

/-- What a determinization has answered honours the contract. -/
theorem honours_lastingSubsets (budget : ℕ) (h : Steadies A K V) {ξ : SubsetMemory L S W × σ}
    (hξ : (subsetRegime r K).Sound ξ) :
    Honours ((lastingSubsets budget h).hoist (Steady.recalling ξ hξ).map)
      fun i => i < ξ.1.subsets.size := by
  let φ := Steady.recalling ξ hξ
  have hstart {p : Option (ℕ × W)} (hp : p ∈ φ.map (lastingStart budget h)) :
      ξ.1.start = some p := (Stocked.startSubset h hξ (recollect_eq_some.1 hp)).2.2.2
  have hstates {ss : List ℕ} (hss : ss ∈ φ.map (lastingSubsets budget h).initialStates) :
      ∃ p, ξ.1.start = some p ∧ ss = p.toList.map (·.1) := by
    rw [lastingSubsets, φ.bind] at hss
    obtain ⟨p, hp, hss⟩ := Option.bind_eq_some_iff.1 hss
    rw [φ.pure] at hss
    exact ⟨p, hstart hp, (Option.some.inj hss).symm⟩
  have hweight {i : ℕ} {w : W} (hw : w ∈ φ.map ((lastingSubsets budget h).initialWeight i)) :
      ∃ p, ξ.1.start = some p ∧ w = p.elim 0 fun q => if q.1 = i then q.2 else 0 := by
    rw [lastingSubsets, φ.bind] at hw
    obtain ⟨p, hp, hw⟩ := Option.bind_eq_some_iff.1 hw
    refine ⟨p, hstart hp, ?_⟩
    cases p <;> exact (Option.some.inj ((φ.pure _).symm.trans hw)).symm
  have hmoves {i : ℕ} {ts : List (SubsetTransition L W)}
      (hts : ts ∈ φ.map ((lastingSubsets budget h).outgoing i)) :
      ∀ t ∈ ts, t.source = i ∧ t.target < ξ.1.subsets.size :=
    hξ.explored i ts (Stocked.outgoing h hξ (recollect_eq_some.1 hts)).2.2.2
  refine ⟨⟨fun ss hss => ?_, fun _ ss hss i w hw => ?_, fun ss hss i hi => ?_,
    fun i ts hts t ht => (hmoves hts t ht).1, fun i _ ts hts t ht => (hmoves hts t ht).2⟩,
    nofun, nofun⟩
  · obtain ⟨p, -, rfl⟩ := hstates hss
    cases p <;> simp
  · obtain ⟨p, hp, rfl⟩ := hstates hss
    obtain ⟨q, hq, rfl⟩ := hweight hw
    obtain rfl : p = q := Option.some.inj (hp.symm.trans hq)
    cases p with
    | none => simp
    | some p =>
      by_cases hi : p.1 = i
      · simp [hi, (hξ.start p hp).2]
      · simp [hi, Ne.symm hi]
  · obtain ⟨p, hp, rfl⟩ := hstates hss
    obtain ⟨q, hq, rfl⟩ := List.mem_map.1 hi
    exact (hξ.start q (hp.trans (congrArg some (Option.mem_toList.1 hq)))).1

theorem Steadies.determinize (budget : ℕ) (h : Steadies A K V) :
    Steadies ((A.determinize budget).hoist onBoth) (fun μ i => i < μ.1.subsets.size)
      (lastingSubsets budget h) where
  eq_asked := by
    unfold asked hoist
    congr 1
    · exact Translation.both.bind (A.startSubset budget) fun start =>
        pure (start.toList.map (·.1))
    · funext i
      refine (Translation.both.bind (A.startSubset budget) _).trans (congrArg _ (funext fun p => ?_))
      cases p <;> rfl
  later hlater i hi := hi.trans_le hlater.1.size_le
  finalWeight_run μ i hμ hi := by
    rw [hoist, run_finalWeight]
    change (WeightedAutomata.onSecond _).run μ = if i < μ.1.subsets.size then _ else none
    rw [if_pos hi]
    refine congrArg (Option.map _) (Steady.run_foldlM_eq (I := fun s (e : S × W) => K s e.1)
      (fun hlater _ he => h.later hlater he) (fun total e s hs he => ?_) hμ.sound (hμ.known i) 0)
    exact Steady.run_bind_eq (h.finalWeight_run s e.1 hs he) fun _ _ _ => rfl
  finalWeight_keeps i μ w ν hμ hrun := by
    rw [hoist, run_finalWeight] at hrun
    obtain ⟨⟨_, s⟩, hfinal, heq⟩ := Option.map_eq_some_iff.1 hrun
    cases heq
    have hkeeps := Regime.keeps_foldlM (r := r) (l := μ.1.subset i) (fun total e _ =>
      (h.finalWeight_keeps e.1).bind fun w => Regime.keeps_pure (total + e.2 * w)) 0
    obtain ⟨hs, hlater⟩ := hkeeps _ _ _ hμ.sound hfinal
    have hsame := Restocks.of_later hμ h.later hs hlater
    exact ⟨hsame.stocked, hsame.extends_to, hsame.later⟩
  reversible := nofun
  honours ξ hξ := honours_lastingSubsets budget h hξ

end Determinize

end Automaton

end WeightedAutomata
