import WeightedAutomata.Automaton.Total

/-!
Epsilon closures: what weighted seed states reach by epsilon transitions alone.
-/
namespace WeightedAutomata

/-- States with weights, in the order in which the states came up. -/
abbrev WeightedStates (S W : Type) := List (S × W)

namespace WeightedStates

variable {S W : Type} [BEq S]

/-- Adds to the weight of a state, behind the others if it is new. -/
def add [Add W] (state : S) (w : W) : WeightedStates S W → WeightedStates S W
  | [] => [(state, w)]
  | (s, v) :: rest => if s == state then (s, v + w) :: rest else (s, v) :: add state w rest

/-- Weights of the same state are summed. -/
def collect [Add W] (seeds : WeightedStates S W) : WeightedStates S W :=
  seeds.foldl (fun sums (s, w) => add s w sums) []

def weightOf [Zero W] (state : S) (ws : WeightedStates S W) : W := (ws.lookup state).getD 0

end WeightedStates

namespace Automaton

variable {m : Type → Type} [Monad m] {L S T W : Type} [BEq S] [Zero W] [BEq W]

/-- The epsilon transitions of an automaton, started from seed states that occur once each. -/
def epsilonPart (A : Automaton m L S T W) (seeds : WeightedStates S W) : Automaton m L S T W where
  initialStates := pure ((seeds.filter fun (_, w) => !w == 0).map (·.1))
  outgoing s := return (← A.outgoing s).filter fun t => (A.label t).isNone
  initialWeight s := pure (seeds.weightOf s)
  finalWeight := A.finalWeight
  weight := A.weight
  source := A.source
  target := A.target
  label _ := none
  order := A.order

variable [StepLimited m] [Hashable S] [One W] [Add W] [Mul W]

/-- The states reached from the seeds by epsilon transitions, each with the sum over the seeds and
the paths from them; states whose sum is zero are left out. -/
def epsilonClosure (budget : Nat) (A : Automaton m L S T W) (seeds : WeightedStates S W) :
    m (WeightedStates S W) := do
  let part := A.epsilonPart seeds.collect
  let d ← part.distancesFromInitial budget .default
  return (← part.states budget).filterMap fun s => do
    let w ← d[s]?
    if w == 0 then none else some (s, w)

end Automaton

end WeightedAutomata
