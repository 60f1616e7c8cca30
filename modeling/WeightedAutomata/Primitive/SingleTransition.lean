import WeightedAutomata.Automaton.Basic

/-!
Two states joined by one transition: state 0 is initial and state 1 is final, both with weight one.
-/
namespace WeightedAutomata

variable {m : Type → Type} [Monad m] {L W : Type} [Zero W] [One W]

def singleTransition (label : Option L) (weight : W) : Automaton m L Nat Unit W where
  initialStates := pure [0]
  outgoing s := pure (if s = 0 then [()] else [])
  initialWeight s := pure (if s = 0 then 1 else 0)
  finalWeight s := pure (if s = 1 then 1 else 0)
  weight _ := pure weight
  source _ := 0
  target _ := 1
  label _ := label
  order := some compare
  backward := some
    { finalStates := pure [1]
      incoming := fun s => pure (if s = 1 then [()] else []) }

end WeightedAutomata
