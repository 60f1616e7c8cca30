/-!
How the labels of two automata combine in a product.
-/
namespace WeightedAutomata

/-- Whether a move of a product is allowed, and the label it carries. -/
inductive Move (L : Type) where
  | blocked
  | emit (label : Option L)
  deriving DecidableEq, Repr

/-- The labels of moves of the left operand alone, of the right operand alone and of both. -/
structure Pairing (L₁ L₂ L : Type) where
  leftAlone : Option L₁ → Move L
  rightAlone : Option L₂ → Move L
  together : Option L₁ → Option L₂ → Move L

/-- Equal labels move together, epsilon transitions alone. -/
def Pairing.acceptor {L : Type} [BEq L] : Pairing L L L where
  leftAlone
    | none => .emit none
    | some _ => .blocked
  rightAlone
    | none => .emit none
    | some _ => .blocked
  together
    | some a, some b => if a == b then .emit (some a) else .blocked
    | _, _ => .blocked

/-- The label of a transducer: a symbol read and a symbol written. Either may be missing. -/
structure Tape (I O : Type) where
  input : Option I
  output : Option O
  deriving DecidableEq, Hashable, Repr

namespace Tape

variable {I M O : Type}

/-- The label of a transition with these tapes: none if both are empty. -/
def toLabel (tape : Tape I O) : Option (Tape I O) :=
  if tape.input.isNone && tape.output.isNone then none else some tape

/-- The same symbol read and written. -/
def identity (symbol : I) : Tape I I := ⟨some symbol, some symbol⟩

end Tape

/-- What the left operand writes, the right operand reads. -/
def Pairing.transducer {I M O : Type} [BEq M] : Pairing (Tape I M) (Tape M O) (Tape I O) where
  leftAlone
    | none => .emit none
    | some ⟨input, none⟩ => .emit (Tape.mk input none).toLabel
    | some ⟨_, some _⟩ => .blocked
  rightAlone
    | none => .emit none
    | some ⟨none, output⟩ => .emit (Tape.mk none output).toLabel
    | some ⟨some _, _⟩ => .blocked
  together
    | some ⟨input, some a⟩, some ⟨some b, output⟩ =>
      if a == b then .emit (Tape.mk input output).toLabel else .blocked
    | _, _ => .blocked

end WeightedAutomata
