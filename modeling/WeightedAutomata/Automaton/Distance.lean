import Std.Data.HashMap
import WeightedAutomata.Weight.Convergence
import WeightedAutomata.Automaton.Traversal

/-!
Shortest distances from one state: the sum of the weights of the paths to each state, by
relaxation with residual weights.
-/
namespace WeightedAutomata

/-- How distances are relaxed: the order of the states, and when an estimate has settled. -/
structure Solver (W : Type) where
  queue : Queue W
  converged : Convergence W

def Solver.default {W : Type} [BEq W] : Solver W := ⟨.topological, .exact⟩

/-- Best-first, until nothing changes. -/
def Solver.bestFirst {W : Type} [BEq W] [Ord W] : Solver W := ⟨.bestFirst compare, .exact⟩

/-- A state without an entry is at distance zero. -/
abbrev Distances (S W : Type) [BEq S] [Hashable S] := Std.HashMap S W

variable {S W : Type} [BEq S] [Hashable S]

/-- A relaxation under way. -/
structure Relaxation (S W : Type) [BEq S] [Hashable S] where
  frontier : Frontier S W
  distances : Distances S W
  /-- What has been added to a state's distance and not yet been carried on from it. -/
  residuals : Distances S W

namespace Relaxation

def start (discipline : Discipline S W) (source : S) (initial : W) : Relaxation S W where
  frontier := (Frontier.empty discipline).insert source initial
  distances := Std.HashMap.emptyWithCapacity.insert source initial
  residuals := Std.HashMap.emptyWithCapacity.insert source initial

variable [Zero W] [Add W]

/-- Adds `delta` to the distance and the residual of `target`, unless the distance has settled. -/
def improve (converged : Convergence W) (r : Relaxation S W) (target : S) (delta : W) :
    Relaxation S W :=
  let previous := r.distances.getD target 0
  let updated := previous + delta
  if converged previous updated then r
  else
    { frontier := r.frontier.insert target updated
      distances := r.distances.insert target updated
      residuals := r.residuals.insert target (r.residuals.getD target 0 + delta) }

end Relaxation

namespace Automaton

variable {m : Type → Type} [Monad m] {L T : Type}
variable [Zero W] [Add W] [Mul W] [BEq W]

/-- Carries `residual` along one transition. -/
def relax (A : Automaton m L S T W) (converged : Convergence W) (residual : W)
    (r : Relaxation S W) (t : T) : m (Relaxation S W) := do
  let delta := residual * (← A.weight t)
  return if delta == 0 then r else r.improve converged (A.target t) delta

/-- Takes the next state off the frontier and carries its residual along its transitions. -/
def relaxNext (A : Automaton m L S T W) (converged : Convergence W) (r : Relaxation S W) :
    m (Option (Relaxation S W)) := do
  match r.frontier.pop? with
  | none => pure none
  | some (state, frontier) =>
    let residual := r.residuals.getD state 0
    let r := { r with frontier, residuals := r.residuals.insert state 0 }
    if residual == 0 then return some r
    return some (← (← A.outgoing state).foldlM (A.relax converged residual) r)

/-- For every state, the sum over the paths from `source` of the source's initial weight times the
weights along the path. Empty if the initial weight of `source` is zero. -/
def distances [StepLimited m] (budget : Nat) (A : Automaton m L S T W) (solver : Solver W)
    (source : S) : m (Distances S W) := do
  let initial ← A.initialWeight source
  if initial == 0 then return ∅
  let start := Relaxation.start (solver.queue.discipline A.order) source initial
  return (← untilDone (A.relaxNext solver.converged) budget start).distances

end Automaton

end WeightedAutomata
