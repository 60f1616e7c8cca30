import WeightedAutomata.Weight.Basic
import WeightedAutomata.Weight.Double
import WeightedAutomata.Weight.Logarithm

/-!
The boolean, real, tropical and log weights, with their inverses and their orders, best first.
-/
namespace WeightedAutomata

/-- Accepted or not: addition is "or", multiplication is "and". -/
structure BooleanWeight where
  accepted : Bool
  deriving DecidableEq, Repr

namespace BooleanWeight

instance : Zero BooleanWeight := ⟨⟨false⟩⟩
instance : One BooleanWeight := ⟨⟨true⟩⟩
instance : Add BooleanWeight := ⟨fun a b => ⟨a.accepted || b.accepted⟩⟩
instance : Mul BooleanWeight := ⟨fun a b => ⟨a.accepted && b.accepted⟩⟩

/-- Accepted comes before rejected. -/
instance : Ord BooleanWeight := ⟨fun a b => compare b.accepted a.accepted⟩

instance : PartialInverse BooleanWeight :=
  ⟨fun a => if a.accepted then .ok a else .error .zero⟩

instance : ToString BooleanWeight := ⟨fun a => if a.accepted then "true" else "false"⟩

end BooleanWeight

/-- Probabilities: the larger weight is the better one. -/
structure RealWeight where
  value : Double
  deriving BEq, Repr

namespace RealWeight

instance : Zero RealWeight := ⟨⟨0⟩⟩
instance : One RealWeight := ⟨⟨1⟩⟩
instance : Add RealWeight := ⟨fun a b => ⟨a.value + b.value⟩⟩
instance : Mul RealWeight := ⟨fun a b => ⟨a.value * b.value⟩⟩
instance : Ord RealWeight := ⟨fun a b => compare b.value a.value⟩

instance : PartialInverse RealWeight :=
  ⟨fun a =>
    if a.value == 0 then .error .zero
    else if a.value.isFinite then .ok ⟨1 / a.value⟩
    else .error (.undefined (toString a.value))⟩

instance : ToString RealWeight := ⟨fun a => toString a.value⟩

end RealWeight

namespace Double

/-- Costs along a path add up, and infinity absorbs every other cost. -/
def addCosts (x y : Double) : Double :=
  if x.isInfinity || y.isInfinity then infinity else x + y

def negateCost (x : Double) : Except InverseError Double :=
  if x.isInfinity then .error .zero
  else if x.isFinite then .ok (-x)
  else .error (.undefined (toString x))

end Double

/-- Costs of which the least counts: addition is the minimum, multiplication the sum. -/
structure TropicalWeight where
  value : Double
  deriving BEq, Repr

namespace TropicalWeight

instance : Zero TropicalWeight := ⟨⟨.infinity⟩⟩
instance : One TropicalWeight := ⟨⟨0⟩⟩

/-- The lesser weight, the second of equal ones; NaN gives way to the other weight. -/
instance : Add TropicalWeight :=
  ⟨fun a b => if b.value.value ≤ a.value.value || a.value.isNaN then b else a⟩

instance : Mul TropicalWeight := ⟨fun a b => ⟨a.value.addCosts b.value⟩⟩
instance : Ord TropicalWeight := ⟨fun a b => compare a.value b.value⟩
instance : PartialInverse TropicalWeight := ⟨fun a => a.value.negateCost.map .mk⟩
instance : ToString TropicalWeight := ⟨fun a => toString a.value⟩

end TropicalWeight

namespace Double

/-- `-log (exp (-x) + exp (-y))`, from the lesser cost and the gap between the two. -/
def mergeCosts (x y : Double) : Double :=
  if x.isInfinity then y
  else if y.isInfinity then x
  else
    let (low, high) := if x.value ≤ y.value then (x, y) else (y, x)
    low - (-(high - low)).map fun gap => Logarithm.onePlus gap.exp

end Double

/-- Negative logarithms of probabilities. -/
structure LogWeight where
  value : Double
  deriving BEq, Repr

namespace LogWeight

instance : Zero LogWeight := ⟨⟨.infinity⟩⟩
instance : One LogWeight := ⟨⟨0⟩⟩
instance : Add LogWeight := ⟨fun a b => ⟨a.value.mergeCosts b.value⟩⟩
instance : Mul LogWeight := ⟨fun a b => ⟨a.value.addCosts b.value⟩⟩
instance : Ord LogWeight := ⟨fun a b => compare a.value b.value⟩
instance : PartialInverse LogWeight := ⟨fun a => a.value.negateCost.map .mk⟩
instance : ToString LogWeight := ⟨fun a => toString a.value⟩

end LogWeight

end WeightedAutomata
