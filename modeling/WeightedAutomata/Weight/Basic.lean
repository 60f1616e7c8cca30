/-!
Weights: sums and products in the order listed, and inverses that may fail. The operations
themselves are the classes `Zero`, `One`, `Add` and `Mul`; `Ord` ranks weights, best first.
-/
namespace WeightedAutomata

/-- Why a weight has no multiplicative inverse. -/
inductive InverseError where
  | zero
  | undefined (weight : String)
  deriving DecidableEq, Repr

def InverseError.message : InverseError → String
  | .zero => "the additive identity has no multiplicative inverse"
  | .undefined weight => s!"weight {weight} has no multiplicative inverse"

/-- Weights of which some can be inverted: `inverse w` undoes a factor `w`. -/
class PartialInverse (W : Type) where
  inverse : W → Except InverseError W

namespace Weight

variable {W : Type}

/-- The weights added from left to right. -/
def sum [Zero W] [Add W] (ws : List W) : W := ws.foldl (· + ·) 0

/-- The weights multiplied from left to right. -/
def product [One W] [Mul W] (ws : List W) : W := ws.foldl (· * ·) 1

/-- Removes the factor `b` from the left of `a`. -/
def divide [Mul W] [PartialInverse W] (a b : W) : Except InverseError W :=
  (PartialInverse.inverse b).map (· * a)

end Weight

end WeightedAutomata
