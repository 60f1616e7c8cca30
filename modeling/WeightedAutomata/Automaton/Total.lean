import WeightedAutomata.Automaton.Distance
import WeightedAutomata.Primitive.SingleString
import WeightedAutomata.View.Product
import WeightedAutomata.View.Reversal
import WeightedAutomata.View.SingleInitial

/-!
Distances from all initial states and to all final states, and the sums over complete paths.
-/
namespace WeightedAutomata.Automaton

variable {m : Type → Type} [Monad m] [StepLimited m] {L S T W : Type} [BEq S] [Hashable S]
variable [Zero W] [One W] [Add W] [Mul W] [BEq W]

/-- The distances of the operand's own states, without that of the added state. -/
def ownDistances (d : Distances (Option S) W) : Distances S W :=
  .ofList (d.toList.filterMap fun (s, w) => s.map fun s => (s, w))

/-- For every state, the sum over the paths from initial states of the initial weight times the
weights along the path. The empty path of an initial state counts. -/
def distancesFromInitial (budget : Nat) (A : Automaton m L S T W) (solver : Solver W) :
    m (Distances S W) := do
  let d := ownDistances (← A.singleInitial.distances budget solver none)
  (← A.initialStates).foldlM
    (fun d s => return d.insert s (d.getD s 0 + (← A.initialWeight s))) d

/-- For every state, the sum over the paths to final states, where the automaton can be walked
backwards. -/
def distancesToFinal? (budget : Nat) (A : Automaton m L S T W) (solver : Solver W) :
    Option (m (Distances S W)) :=
  A.reverse?.map fun reversed => reversed.distancesFromInitial budget solver

/-- The sum of the weights of all complete paths, added in the order of the traversal. -/
def completeDistance (budget : Nat) (A : Automaton m L S T W) (solver : Solver W) : m W := do
  let d ← A.distancesFromInitial budget solver
  (← A.states budget).foldlM (fun total s => do
    match d[s]? with
    | none => return total
    | some w =>
      let final ← A.finalWeight s
      return if final == 0 then total else total + w * final) 0

/-- The sum of the weights of the complete paths that read `string`. -/
def stringWeight [BEq L] (budget : Nat) (A : Automaton m L S T W) (solver : Solver W)
    (string : List L) : m W :=
  (A.intersection (singleString string)).completeDistance budget solver

end WeightedAutomata.Automaton
