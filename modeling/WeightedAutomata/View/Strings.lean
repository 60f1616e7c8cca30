import WeightedAutomata.Primitive.SingleString
import WeightedAutomata.View.Determinization
import WeightedAutomata.View.Union

/-!
The deterministic acceptor of several strings, each with weight one.
-/
namespace WeightedAutomata

variable {m : Type → Type} [Monad m] [StepLimited m] {L W : Type} [BEq L]
variable [Zero W] [One W] [Add W] [Mul W] [BEq W] [PartialInverse W]

/-- Repeated strings add up. -/
def multipleStrings (budget : Nat) (strings : List (List L)) :
    Except BuildError
      (Automaton (Automaton.Subsets m L (Tagged fun _ : Fin strings.length => Nat) W) L Nat
        (SubsetTransition L W) W) :=
  (union? fun i => singleString (strings.get i)).map (·.determinize budget)

end WeightedAutomata
