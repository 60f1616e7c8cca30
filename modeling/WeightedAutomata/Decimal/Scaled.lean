import WeightedAutomata.Decimal.Digits

/-!
Doubles from decimals: the digits that fit in 64 bits, scaled by a power of ten. Digits, power and
their product or quotient are rounded one by one, so the result may miss the nearest double.
-/
namespace WeightedAutomata.Decimal

/-- A number of 64 bits, and how many further digits it leaves out. -/
structure Significand where
  value : Nat
  omitted : Nat
  deriving DecidableEq, Repr

namespace Significand

/-- Takes one more digit, unless it does not fit or an earlier one did not. -/
def push (s : Significand) (digit : Char) : Significand :=
  let next := 10 * s.value + digitValue digit
  if s.omitted = 0 ∧ next < UInt64.size then ⟨next, 0⟩ else ⟨s.value, s.omitted + 1⟩

/-- The digits of the fraction are tried anew after a whole part of which some are left out. -/
def ofParts (whole fraction : List Char) : Significand :=
  let front : Significand := whole.foldl push ⟨0, 0⟩
  let all : Significand := fraction.foldl push ⟨front.value, 0⟩
  ⟨all.value, front.omitted + all.omitted⟩

end Significand

/-- The double nearest to `10 ^ n`. -/
def powerOfTen (n : Nat) : Float := Float.ofScientific 1 false n

/-- The greatest power of ten among the doubles. -/
def greatestPower : Nat := 308

/-- `x * 10 ^ n`; `none` beyond the doubles. -/
def multiply? (x : Float) (n : Nat) : Option Float :=
  if x == 0 then some x
  else if greatestPower < n then none
  else
    let y := x * powerOfTen n
    if y.isInf then none else some y

/-- `x / 10 ^ n`, by way of the greatest power where `n` is above it. A number of 64 bits is lost
after two divisions by that power. -/
def divide (x : Float) (n : Nat) : Float :=
  if n ≤ greatestPower then x / powerOfTen n
  else if n ≤ 2 * greatestPower then x / powerOfTen greatestPower / powerOfTen (n - greatestPower)
  else 0

/-- The double for `whole.fraction * 10 ^ power`; `none` where that is too large. -/
def read? (whole fraction : List Char) (power : Int) : Option Float :=
  let significand := Significand.ofParts whole fraction
  let exponent := power - fraction.length + significand.omitted
  let x := significand.value.toUInt64.toFloat
  if 0 ≤ exponent then multiply? x exponent.toNat else some (divide x exponent.natAbs)

end WeightedAutomata.Decimal
