import Std.Data.HashSet
import WeightedAutomata.Frontier
import WeightedAutomata.Automaton.Basic

/-!
Traversal: every reachable state once, in topological order where one is known, else breadth
first.
-/
namespace WeightedAutomata

/-- Computations that may run out of the steps they are allowed. -/
class StepLimited (m : Type → Type) where
  outOfSteps {α : Type} : m α

instance : StepLimited Option := ⟨none⟩

instance {σ : Type} {m : Type → Type} [StepLimited m] : StepLimited (StateT σ m) :=
  ⟨fun _ => StepLimited.outOfSteps⟩

variable {m : Type → Type} [Monad m] [StepLimited m]

/-- Takes steps until none is left, at most `budget` of them. -/
def untilDone {α : Type} (step : α → m (Option α)) : (budget : Nat) → α → m α
  | 0, _ => StepLimited.outOfSteps
  | budget + 1, a => do
    match ← step a with
    | none => pure a
    | some b => untilDone step budget b

variable {L S T W : Type} [BEq S] [Hashable S]

/-- A traversal under way. -/
structure Sweep (S T : Type) [BEq S] [Hashable S] where
  frontier : Frontier S Unit
  seen : Std.HashSet S
  /-- The states done with the transitions that leave them, latest first. -/
  visited : List (S × List T)

namespace Sweep

def start (discipline : Discipline S Unit) : Sweep S T := ⟨.empty discipline, ∅, []⟩

/-- Schedules a state when it is seen for the first time. -/
def discover (sweep : Sweep S T) (state : S) : Sweep S T :=
  if sweep.seen.contains state then sweep
  else
    { sweep with
      frontier := sweep.frontier.insert state ()
      seen := sweep.seen.insert state }

end Sweep

namespace Automaton

def visitNext (A : Automaton m L S T W) (sweep : Sweep S T) : m (Option (Sweep S T)) := do
  match sweep.frontier.pop? with
  | none => pure none
  | some (state, frontier) =>
    let out ← A.outgoing state
    let sweep := { sweep with frontier, visited := (state, out) :: sweep.visited }
    return some ((out.map A.target).foldl Sweep.discover sweep)

/-- The reachable states with the transitions that leave them, in the order of the traversal. -/
def explore (budget : Nat) (A : Automaton m L S T W) : m (List (S × List T)) := do
  let start := Sweep.start (Queue.topological.discipline A.order)
  let start := (← A.initialStates).foldl Sweep.discover start
  return (← untilDone A.visitNext budget start).visited.reverse

def states (budget : Nat) (A : Automaton m L S T W) : m (List S) :=
  return (← A.explore budget).map (·.1)

def transitions (budget : Nat) (A : Automaton m L S T W) : m (List T) :=
  return (← A.explore budget).flatMap (·.2)

end Automaton

end WeightedAutomata
