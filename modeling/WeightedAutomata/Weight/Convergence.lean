import WeightedAutomata.Weight.Numeric

/-!
When two successive estimates of a weight count as one.
-/
namespace WeightedAutomata

/-- `converged previous current`: the change is not material. -/
abbrev Convergence (W : Type) := W → W → Bool

namespace Convergence

def exact {W : Type} [BEq W] : Convergence W := (· == ·)

def always {W : Type} : Convergence W := fun _ _ => true

/-- Equal, or both finite and at most `tolerance` apart. -/
def within (tolerance : Double) : Convergence Double := fun previous current =>
  previous == current ||
    (previous.isFinite && current.isFinite &&
      (previous.value - current.value).abs ≤ tolerance.value)

end Convergence

end WeightedAutomata
