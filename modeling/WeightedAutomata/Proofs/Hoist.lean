import Mathlib.Data.Nat.Notation
import WeightedAutomata.Automaton.Total
import WeightedAutomata.Explicit.Copy
import WeightedAutomata.KBest.Paths
import WeightedAutomata.View.Determinization

/-!
Translations between the monads of queries. What is computed from the answers of an automaton is
translated along with them, and so are its views.
-/
namespace WeightedAutomata

variable {m n : Type → Type} [Monad m] [Monad n] [StepLimited m] [StepLimited n]

/-- A translation of computations, step by step. -/
structure Translation (m n : Type → Type) [Monad m] [Monad n] [StepLimited m] [StepLimited n] where
  map : {α : Type} → m α → n α
  pure : ∀ {α : Type} (a : α), map (Pure.pure a) = Pure.pure a
  bind : ∀ {α β : Type} (x : m α) (f : α → m β), map (x >>= f) = map x >>= fun a => map (f a)
  outOfSteps : ∀ {α : Type}, map (StepLimited.outOfSteps : m α) = StepLimited.outOfSteps

namespace Translation

variable (φ : Translation m n) {α β : Type}

theorem foldlM (f : β → α → m β) (l : List α) (b : β) :
    φ.map (l.foldlM f b) = l.foldlM (fun b a => φ.map (f b a)) b := by
  induction l generalizing b with
  | nil => exact φ.pure b
  | cons a l ih => simp only [List.foldlM_cons, φ.bind, ih]

theorem mapM (f : α → m β) (l : List α) : φ.map (l.mapM f) = l.mapM fun a => φ.map (f a) := by
  have hloop (bs : List β) :
      φ.map (List.mapM.loop f l bs) = List.mapM.loop (fun a => φ.map (f a)) l bs := by
    induction l generalizing bs with
    | nil => exact φ.pure _
    | cons a l ih => simp only [List.mapM.loop, φ.bind, ih]
  exact hloop []

theorem filterMapM (f : α → m (Option β)) (l : List α) :
    φ.map (l.filterMapM f) = l.filterMapM fun a => φ.map (f a) := by
  have hloop (bs : List β) :
      φ.map (List.filterMapM.loop f l bs) = List.filterMapM.loop (fun a => φ.map (f a)) l bs := by
    induction l generalizing bs with
    | nil => exact φ.pure _
    | cons a l ih =>
      simp only [List.filterMapM.loop, φ.bind]
      congr 1
      funext b
      cases b with
      | none => exact ih bs
      | some b => exact ih (b :: bs)
  exact hloop []

theorem untilDone (step : α → m (Option α)) (budget : ℕ) (a : α) :
    φ.map (untilDone step budget a) =
      WeightedAutomata.untilDone (fun a => φ.map (step a)) budget a := by
  induction budget generalizing a with
  | zero => exact φ.outOfSteps
  | succ budget ih =>
    simp only [WeightedAutomata.untilDone, φ.bind]
    congr 1
    funext b
    cases b with
    | none => exact φ.pure a
    | some b => exact ih b

/-- The translation of computations with a memory on top. -/
def overlay (M : Type) : Translation (StateT M m) (StateT M n) where
  map x μ := φ.map (x μ)
  pure a := funext fun μ => φ.pure (a, μ)
  bind x f := funext fun μ => φ.bind (x μ) fun answer => f answer.1 answer.2
  outOfSteps := funext fun _ => φ.outOfSteps

theorem overlay_lift {M : Type} (x : m α) :
    (φ.overlay M).map (StateT.lift x) = StateT.lift (φ.map x) := by
  funext μ
  exact (φ.bind x _).trans (congrArg _ (funext fun a => φ.pure (a, μ)))

theorem overlay_get {M : Type} : (φ.overlay M).map get = get := funext fun μ => φ.pure (μ, μ)

theorem overlay_modify {M : Type} (f : M → M) : (φ.overlay M).map (modify f) = modify f :=
  funext fun μ => φ.pure ((), f μ)

theorem overlay_modifyGet {M : Type} (f : M → α × M) :
    (φ.overlay M).map (modifyGet f) = modifyGet f := funext fun μ => φ.pure (f μ)

end Translation

namespace Automaton

variable (φ : Translation m n) {L S T W : Type} (A : Automaton m L S T W)

section Views

variable [Zero W] [One W] [Mul W]

theorem hoist_singleInitial [Add W] :
    (A.hoist φ.map).singleInitial = A.singleInitial.hoist φ.map := by
  unfold singleInitial hoist
  congr 1
  · exact (φ.pure _).symm
  · funext s
    cases s with
    | none =>
      simp only [φ.bind, φ.mapM, φ.pure]
    | some s =>
      simp only [φ.bind, φ.pure]
  · funext s
    exact (φ.pure _).symm
  · funext s
    cases s with
    | none =>
      simp only [φ.bind, φ.foldlM, φ.pure]
    | some s => rfl
  · funext t
    cases t with
    | fused t =>
      simp only [φ.bind, φ.pure]
    | plain t => rfl

omit [Mul W] in
theorem hoist_singleString (x : List L) :
    (singleString x : Automaton n L ℕ ℕ W) =
      (singleString x : Automaton m L ℕ ℕ W).hoist φ.map := by
  unfold singleString hoist
  simp only [φ.pure]
  congr 1
  simp only [Option.map_some, Backward.hoist, φ.pure]

end Views

section Distances

variable [BEq S] [Hashable S] [Zero W] [Add W] [Mul W] [BEq W]

theorem hoist_relax (converged : Convergence W) (residual : W) (r : Relaxation S W) (t : T) :
    (A.hoist φ.map).relax converged residual r t = φ.map (A.relax converged residual r t) := by
  simp only [relax, φ.bind, φ.pure]
  rfl

theorem hoist_relaxNext (converged : Convergence W) (r : Relaxation S W) :
    (A.hoist φ.map).relaxNext converged r = φ.map (A.relaxNext converged r) := by
  unfold relaxNext
  cases r.frontier.pop? with
  | none => exact (φ.pure _).symm
  | some next =>
    obtain ⟨state, frontier⟩ := next
    dsimp only
    split
    · exact (φ.pure _).symm
    · simp only [φ.bind, φ.foldlM, φ.pure, ← hoist_relax]
      rfl

theorem hoist_distances (budget : ℕ) (solver : Solver W) (source : S) :
    (A.hoist φ.map).distances budget solver source = φ.map (A.distances budget solver source) := by
  simp only [distances, φ.bind]
  refine congrArg _ (funext fun initial => ?_)
  split
  · exact (φ.pure _).symm
  · simp only [φ.bind, φ.untilDone, φ.pure, ← hoist_relaxNext]
    rfl

variable [One W]

theorem hoist_distancesFromInitial (budget : ℕ) (solver : Solver W) :
    (A.hoist φ.map).distancesFromInitial budget solver =
      φ.map (A.distancesFromInitial budget solver) := by
  simp only [distancesFromInitial, hoist_singleInitial, hoist_distances, φ.bind, φ.foldlM, φ.pure]
  rfl

end Distances

section Traversal

variable [BEq S] [Hashable S]

theorem hoist_visitNext (sweep : Sweep S T) :
    (A.hoist φ.map).visitNext sweep = φ.map (A.visitNext sweep) := by
  unfold visitNext
  cases sweep.frontier.pop? with
  | none => exact (φ.pure _).symm
  | some next =>
    simp only [φ.bind, φ.pure]
    rfl

theorem hoist_explore (budget : ℕ) : (A.hoist φ.map).explore budget = φ.map (A.explore budget) := by
  simp only [explore, φ.bind, φ.untilDone, φ.pure, ← hoist_visitNext]
  rfl

theorem hoist_states (budget : ℕ) : (A.hoist φ.map).states budget = φ.map (A.states budget) := by
  simp only [states, hoist_explore, φ.bind, φ.pure]

theorem hoist_materialize (budget : ℕ) :
    (A.hoist φ.map).materialize budget = φ.map (A.materialize budget) := by
  simp only [materialize, hoist_explore, φ.bind, φ.mapM, φ.pure]
  rfl

end Traversal

section Total

variable [BEq S] [Hashable S] [Zero W] [One W] [Add W] [Mul W] [BEq W]

theorem hoist_completeDistance (budget : ℕ) (solver : Solver W) :
    (A.hoist φ.map).completeDistance budget solver = φ.map (A.completeDistance budget solver) := by
  simp only [completeDistance, hoist_distancesFromInitial, hoist_states, φ.bind, φ.foldlM]
  refine congrArg _ (funext fun d => congrArg _ (funext fun states => ?_))
  congr 1
  funext total s
  cases d[s]? with
  | none => exact (φ.pure _).symm
  | some w =>
    simp only [φ.bind, φ.pure]
    rfl

omit [Add W] in
theorem hoist_product {L₁ L₂ S₁ S₂ T₁ T₂ : Type} (pairing : Pairing L₁ L₂ L)
    (A : Automaton m L₁ S₁ T₁ W) (B : Automaton m L₂ S₂ T₂ W) :
    product pairing (A.hoist φ.map) (B.hoist φ.map) = (product pairing A B).hoist φ.map := by
  unfold product hoist
  congr 1
  · simp only [φ.bind, φ.mapM, φ.filterMapM, φ.pure]
  · funext s
    simp only [φ.bind, φ.pure]
    rfl
  · funext s
    dsimp only
    split
    · simp only [φ.bind, φ.pure]
    · exact (φ.pure _).symm
  · funext s
    simp only [φ.bind, φ.pure]
  · funext t
    simp only [φ.bind, φ.pure]
    cases t.left <;> cases t.right <;> simp [φ.pure]

theorem hoist_stringWeight [BEq L] (budget : ℕ) (solver : Solver W) (x : List L) :
    (A.hoist φ.map).stringWeight budget solver x = φ.map (A.stringWeight budget solver x) := by
  unfold stringWeight intersection
  rw [hoist_singleString φ, hoist_product, hoist_completeDistance]

end Total

section Subsets

variable [BEq S] [Zero W] [BEq W]

theorem hoist_epsilonPart (seeds : WeightedStates S W) :
    (A.hoist φ.map).epsilonPart seeds = (A.epsilonPart seeds).hoist φ.map := by
  unfold epsilonPart hoist
  simp only [φ.bind, φ.pure]
  rfl

theorem hoist_epsilonClosure [Hashable S] [One W] [Add W] [Mul W] (budget : ℕ)
    (seeds : WeightedStates S W) :
    (A.hoist φ.map).epsilonClosure budget seeds = φ.map (A.epsilonClosure budget seeds) := by
  simp only [epsilonClosure, hoist_epsilonPart, hoist_distancesFromInitial, hoist_states, φ.bind,
    φ.pure]

omit [BEq S] in
theorem hoist_successors [BEq L] [Mul W] (subset : WeightedStates S W) :
    (A.hoist φ.map).successors subset = φ.map (A.successors subset) := by
  unfold successors
  rw [φ.foldlM]
  congr 1
  funext groups e
  obtain ⟨s, residual⟩ := e
  simp only [φ.bind, φ.foldlM]
  refine congrArg _ (funext fun ts => congrArg (fun f => List.foldlM f groups ts) ?_)
  funext groups t
  have hsame : (A.hoist φ.map).label t = A.label t := rfl
  rw [hsame]
  cases A.label t with
  | none => exact (φ.pure _).symm
  | some label =>
    simp only [φ.bind, φ.pure]
    rfl

variable [BEq L] [Hashable S] [One W] [Add W] [Mul W] [PartialInverse W]

omit [BEq L] in
theorem hoist_settle (budget : ℕ) (seeds : WeightedStates S W) :
    (A.hoist φ.map).settle budget seeds = (φ.overlay _).map (A.settle budget seeds) := by
  simp only [settle, hoist_epsilonClosure, (φ.overlay _).bind, φ.overlay_lift]
  refine congrArg _ (funext fun closed => ?_)
  split
  · exact ((φ.overlay _).pure _).symm
  · cases PartialInverse.inverse (Weight.sum (closed.map (·.2))) with
    | error e => simp only [(φ.overlay _).bind, (φ.overlay _).pure, φ.overlay_modify]
    | ok b => simp only [(φ.overlay _).bind, (φ.overlay _).pure, φ.overlay_modifyGet]

omit [BEq L] in
theorem hoist_startSubset (budget : ℕ) :
    (A.hoist φ.map).startSubset budget = (φ.overlay _).map (A.startSubset budget) := by
  simp only [startSubset, (φ.overlay _).bind, φ.overlay_get]
  refine congrArg _ (funext fun μ => ?_)
  cases μ.start with
  | some start => exact ((φ.overlay _).pure _).symm
  | none =>
    simp only [(φ.overlay _).bind, (φ.overlay _).pure, φ.overlay_modify, φ.overlay_lift,
      hoist_settle, φ.bind, φ.mapM, φ.pure]
    rfl

theorem hoist_expand (budget state : ℕ) :
    (A.hoist φ.map).expand budget state = (φ.overlay _).map (A.expand budget state) := by
  simp only [expand, (φ.overlay _).bind, (φ.overlay _).filterMapM, (φ.overlay _).pure, φ.overlay_get,
    φ.overlay_lift, hoist_successors, hoist_settle]

theorem hoist_determinize (budget : ℕ) :
    (A.hoist φ.map).determinize budget = (A.determinize budget).hoist (φ.overlay _).map := by
  simp only [determinize, hoist_startSubset, hoist_expand]
  conv => rhs; rw [hoist]
  congr 1
  · simp only [(φ.overlay _).bind, (φ.overlay _).pure]
  · funext s
    simp only [(φ.overlay _).bind, φ.overlay_get]
    refine congrArg _ (funext fun μ => ?_)
    cases μ.explored[s]? with
    | some ts => exact ((φ.overlay _).pure _).symm
    | none => simp only [(φ.overlay _).bind, (φ.overlay _).pure, φ.overlay_modify]
  · funext s
    simp only [(φ.overlay _).bind]
    refine congrArg _ (funext fun start => ?_)
    cases start <;> exact ((φ.overlay _).pure _).symm
  · funext s
    simp only [(φ.overlay _).bind, (φ.overlay _).foldlM, (φ.overlay _).pure, φ.overlay_get]
    refine congrArg _ (funext fun μ => congrArg (fun f => List.foldlM f 0 (μ.subset s)) ?_)
    funext total e
    exact congrArg (· >>= _) (φ.overlay_lift (A.finalWeight e.1)).symm
  · exact funext fun t => ((φ.overlay _).pure _).symm

end Subsets

section KBest

variable [BEq S] [Hashable S] [BEq T] [Zero W] [One W] [Mul W] [BEq W] [Ord W]

omit [One W] [Mul W] [BEq S] [Hashable S] [BEq T] [Ord W] in
theorem hoist_kBest (k : ℕ) : (A.hoist φ.map).kBest k = (A.kBest k).hoist φ.map := by
  unfold kBest hoist
  simp only [φ.bind, φ.pure]
  rfl

theorem hoist_shortestPaths (budget k : ℕ) (solver : Solver (KBest k S T W)) :
    (A.hoist φ.map).shortestPaths budget k solver = φ.map (A.shortestPaths budget k solver) := by
  unfold shortestPaths
  split
  · exact (φ.pure _).symm
  · simp only [hoist_kBest, hoist_completeDistance, φ.bind, φ.pure]
    rfl

end KBest

end Automaton

end WeightedAutomata
