import WeightedAutomata.Automaton.Basic

/-!
The acceptor of one string, with weight one. Its states are the positions in the string.
-/
namespace WeightedAutomata

variable {m : Type → Type} [Monad m] {L W : Type} [Zero W] [One W]

/-- Transition `i` reads the label at position `i`. -/
def singleString (string : List L) : Automaton m L Nat Nat W where
  initialStates := pure [0]
  outgoing s := pure (if s < string.length then [s] else [])
  initialWeight s := pure (if s = 0 then 1 else 0)
  finalWeight s := pure (if s = string.length then 1 else 0)
  weight _ := pure 1
  source t := t
  target t := t + 1
  label t := string[t]?
  order := some compare
  backward := some
    { finalStates := pure [string.length]
      incoming := fun s => pure (if 0 < s ∧ s ≤ string.length then [s - 1] else []) }

/-- The acceptor of the empty string only. -/
def emptyString : Automaton m L Nat Nat W := singleString []

end WeightedAutomata
