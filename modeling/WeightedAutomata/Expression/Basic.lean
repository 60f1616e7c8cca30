import WeightedAutomata.Expression.Bundle

/-!
Expressions: automata put together from explicit and primitive ones by nested views.
-/
namespace WeightedAutomata

inductive Expression (L W : Type) where
  /-- The outcome of a construction. -/
  | explicit (outcome : Except BuildError (Explicit L W))
  | string (labels : List L)
  | transition (label : Option L) (weight : W)
  /-- The acceptor of several strings, as a determinized union. -/
  | strings (members : List (List L))
  | union (operands : List (Expression L W))
  | product (pairing : Pairing L L L) (left right : Expression L W)
  | determinize (operand : Expression L W)
  | singleInitial (operand : Expression L W)
  | materialize (operand : Expression L W)
  | reverse (operand : Expression L W)

namespace Expression

variable {L W : Type} [BEq L] [Zero W] [One W] [Add W] [Mul W] [BEq W] [PartialInverse W]

mutual

/-- Operands are built from left to right and before the view; the first error counts. -/
def build (budget : Nat) : Expression L W → Except BuildError (AnyAutomaton L W)
  | .explicit outcome =>
    match outcome with
    | .error e => .error e
    | .ok E => .ok (.explicit E)
  | .string labels => .ok (.string labels)
  | .transition label weight => .ok (.transition label weight)
  | .strings members => AnyAutomaton.strings? budget members
  | .union operands => buildAll budget operands >>= AnyAutomaton.union?
  | .product pairing left right => do
    let a ← build budget left
    let b ← build budget right
    return a.product pairing b
  | .determinize operand => (build budget operand).map (·.determinize budget)
  | .singleInitial operand => (build budget operand).map (·.singleInitial)
  | .materialize operand => build budget operand >>= (·.materialize? budget)
  | .reverse operand => do
    (← build budget operand).reverse?.elim (.error .notReversible) .ok

def buildAll (budget : Nat) : List (Expression L W) → Except BuildError (List (AnyAutomaton L W))
  | [] => .ok []
  | e :: es => do
    let a ← build budget e
    let as ← buildAll budget es
    return a :: as

end

end Expression

end WeightedAutomata
