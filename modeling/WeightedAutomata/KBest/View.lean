import WeightedAutomata.Automaton.Basic
import WeightedAutomata.KBest.Basic

/-!
The view of an automaton whose weights remember the `k` best paths.
-/
namespace WeightedAutomata.Automaton

variable {m : Type → Type} [Monad m] {L S T W : Type} [Zero W] [BEq W]

def kBest (k : Nat) (A : Automaton m L S T W) : Automaton m L S T (KBest k S T W) where
  initialStates := A.initialStates
  outgoing := A.outgoing
  initialWeight s := return .liftInitial (← A.initialWeight s) s
  finalWeight s := return .lift (← A.finalWeight s)
  weight t := return .liftTransition (← A.weight t) t
  source := A.source
  target := A.target
  label := A.label
  order := A.order

end WeightedAutomata.Automaton
