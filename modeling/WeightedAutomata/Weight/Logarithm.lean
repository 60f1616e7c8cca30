import WeightedAutomata.Binary

/-!
The logarithm of one plus a number between zero and one, for the sums of log weights.
-/
namespace WeightedAutomata.Logarithm

/-- The logarithm of two is `twoHigh + twoLow`; `twoHigh` has few digits. -/
def twoHigh : Float := 6.93147180369123816490e-01

def twoLow : Float := 1.90821492927058770002e-10

/-- With `s = f / (2 + f)` and `z = s ^ 2`, the logarithm of `1 + f` is
`2 * s + s * remainder z`. -/
def remainder (z : Float) : Float :=
  let z2 := z * z
  let z4 := z2 * z2
  let low := fusedMultiplyAdd z 6.666666666666735130e-01
    (z2 * fusedMultiplyAdd z 2.857142874366239149e-01 3.999999999940941908e-01)
  let middle := fusedMultiplyAdd z 1.818357216161805012e-01 2.222219843214978396e-01
  let high := fusedMultiplyAdd z 1.479819860511658591e-01 1.531383769920937332e-01
  fusedMultiplyAdd (z2 * z4) high (fusedMultiplyAdd z4 middle low)

/-- The logarithm of `1 + f` is `f - (f ^ 2 / 2 - correction f)`. -/
def correction (f : Float) : Float :=
  let s := f / (2 + f)
  s * (0.5 * f * f + remainder (s * s))

/-- Above this number `1 + x` is halved, so that the series runs near zero: about `√2 - 1`. -/
def halvingBound : Float := 0.414213657379150390625

/-- Below this number two terms of the series do. -/
def smallBound : Float := 1.86264514923095703125e-9

/-- The logarithm of `1 + x` for `0 ≤ x ≤ 1`; NaN is handed on. -/
def onePlus (x : Float) : Float :=
  if x < smallBound then x - 0.5 * x * x
  else if x < halvingBound then x - (0.5 * x * x - correction x)
  else
    let sum := 1 + x
    let lost := if sum == 2 then 1 - (sum - x) else x - (sum - 1)
    let f := sum / 2 - 1
    twoHigh - ((0.5 * f * f - ((twoLow + lost / sum) + correction f)) - f)

end WeightedAutomata.Logarithm
