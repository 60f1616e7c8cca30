import WeightedAutomata.KBest.View
import WeightedAutomata.View.Determinization

/-!
The best complete paths of an automaton, and its best strings.
-/
namespace WeightedAutomata

/-- A complete path: from an initial state along transitions to a final state. -/
structure Path (L S T W : Type) where
  origin : S
  transitions : List T
  /-- The labels along the path, epsilon transitions left out. -/
  label : List L
  /-- Initial weight, weights along the path and final weight, multiplied in order. -/
  weight : W
  deriving Repr

namespace Automaton

variable {m : Type → Type} [Monad m] [StepLimited m] {L S T W : Type}
variable [BEq S] [Hashable S] [BEq T] [Zero W] [One W] [Mul W] [BEq W] [Ord W]

def path? (A : Automaton m L S T W) (p : PathWeight S T W) : Option (Path L S T W) :=
  if p.weight == 0 then none
  else p.origin.map fun origin => ⟨origin, p.transitions, A.labels p.transitions, p.weight⟩

/-- The `count` best complete paths, best first; there may be fewer. -/
def shortestPaths (budget : Nat) (A : Automaton m L S T W) (count : Nat)
    (solver : Solver (KBest count S T W)) : m (List (Path L S T W)) := do
  if count = 0 then return []
  let best ← (A.kBest count).completeDistance budget solver
  return best.entries.filterMap A.path?

variable [BEq L] [Add W] [PartialInverse W]

/-- The `count` best different strings, best first, as paths of the determinization, in which
every string has one path. -/
def bestStrings (budget : Nat) (A : Automaton m L S T W) (count : Nat)
    (solver : Solver (KBest count Nat (SubsetTransition L W) W)) :
    Subsets m L S W (List (Path L Nat (SubsetTransition L W) W)) :=
  (A.determinize budget).shortestPaths budget count solver

end Automaton

end WeightedAutomata
