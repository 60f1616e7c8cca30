import WeightedAutomata.View.Pairing
import WeightedAutomata.View.Product

/-!
Names that tell apart the states and transitions of nested views.
-/
namespace WeightedAutomata

inductive StateName where
  | number (n : Nat)
  | operand (index : Nat) (state : StateName)
  | pair (left right : StateName) (filter : EpsilonFilter)
  /-- The state that a single-initial view adds. -/
  | added
  | own (state : StateName)
  | subset (index : Nat)
  deriving DecidableEq, Repr

inductive TransitionName (L : Type) where
  | number (n : Nat)
  /-- The one transition of an automaton that has no other. -/
  | sole
  | operand (index : Nat) (transition : TransitionName L)
  | left (transition : TransitionName L)
  | right (transition : TransitionName L)
  | both (left right : TransitionName L)
  | still
  | fused (transition : TransitionName L)
  | plain (transition : TransitionName L)
  | subset (source : Nat) (label : L) (target : Nat)
  deriving DecidableEq, Repr

namespace TransitionName

variable {L : Type}

/-- The name of a product transition by the names of the sides that move. -/
def ofSides : Option (TransitionName L) → Option (TransitionName L) → TransitionName L
  | none, none => .still
  | some l, none => .left l
  | none, some r => .right r
  | some l, some r => .both l r

end TransitionName

end WeightedAutomata
