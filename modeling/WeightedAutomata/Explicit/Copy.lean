import Std.Data.HashMap
import WeightedAutomata.Automaton.Traversal
import WeightedAutomata.Explicit.Basic

/-!
Copies of the reachable part of an automaton as explicit automata. The transitions are the ones that
the traversal was given. A target that it has not listed would be an unknown state; there is none
where an automaton answers a repeated query as before.
-/
namespace WeightedAutomata.Automaton

variable {m : Type → Type} [Monad m] [StepLimited m] {L S T W : Type} [BEq S] [Hashable S]

/-- The place of each state in a list of different states. -/
def numbering (states : List S) : Std.HashMap S Nat :=
  states.zipIdx.foldl (fun numbers (s, i) => numbers.insert s i) ∅

/-- States are numbered in the order of the traversal, transitions state by state. -/
def materialize (budget : Nat) (A : Automaton m L S T W) :
    m (Except BuildError (Explicit L W)) := do
  let visited ← A.explore budget
  let numbers := numbering (visited.map (·.1))
  let terminals ← visited.mapM fun (s, _) =>
    return Terminal.mk (← A.initialWeight s) (← A.finalWeight s)
  let edges ← visited.zipIdx.mapM fun ((_, out), source) => out.mapM fun t =>
    return Edge.mk source (numbers.getD (A.target t) visited.length) (A.label t) (← A.weight t)
  return ((Graph.ofStates terminals.toArray).addTransitions edges.flatten).map Graph.explicit

end WeightedAutomata.Automaton
