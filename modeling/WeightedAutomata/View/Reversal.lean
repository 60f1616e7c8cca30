import WeightedAutomata.Automaton.Basic

/-!
Reversal: every transition turned around, initial and final weights swapped.
-/
namespace WeightedAutomata.Automaton

variable {m : Type → Type} {L S T W : Type}

/-- The reversal by way of `back`, which has to be the automaton's own backward access. -/
def reversal (A : Automaton m L S T W) (back : Backward m S T) : Automaton m L S T W where
  initialStates := back.finalStates
  outgoing := back.incoming
  initialWeight := A.finalWeight
  finalWeight := A.initialWeight
  weight := A.weight
  source := A.target
  target := A.source
  label := A.label
  order := A.order.map fun order a b => order b a
  backward := some ⟨A.initialStates, A.outgoing⟩

/-- Defined where the automaton can be walked backwards. -/
def reverse? (A : Automaton m L S T W) : Option (Automaton m L S T W) :=
  A.backward.map A.reversal

end WeightedAutomata.Automaton
