import WeightedAutomata.Binary
import WeightedAutomata.Decimal.Digits

/-!
Decimal texts of doubles: the fewest digits that read back, nearest to the value among those, and
their positional layout.
-/
namespace WeightedAutomata

/-- Which of two decimals that are equally near is taken. -/
inductive Tie where
  | up
  | toEven
  deriving DecidableEq, Repr

/-- The numbers that round to one double, as numerators over `denominator`. The bounds belong to
the interval iff `closed`. -/
structure Rounding where
  low : Nat
  value : Nat
  high : Nat
  denominator : Nat
  closed : Bool
  deriving DecidableEq, Repr

/-- Half a unit to either side; below a power of two the lower neighbour is half as far. -/
def Binary.rounding (b : Binary) : Rounding :=
  let below := if b.mantissa = hiddenBit ∧ -1074 < b.exponent then 1 else 2
  let up := Nat.pow 2 (b.exponent - 2).toNat
  { low := (4 * b.mantissa - below) * up
    value := 4 * b.mantissa * up
    high := (4 * b.mantissa + 2) * up
    denominator := Nat.pow 2 (2 - b.exponent).toNat
    closed := b.mantissa % 2 = 0 }

namespace Rounding

/-- Whether `digits * 10 ^ exponent` lies in the interval. -/
def contains (r : Rounding) (digits : Nat) (exponent : Int) : Bool :=
  let point := digits * Nat.pow 10 exponent.toNat * r.denominator
  let scale := Nat.pow 10 (-exponent).toNat
  if r.closed then r.low * scale ≤ point ∧ point ≤ r.high * scale
  else r.low * scale < point ∧ point < r.high * scale

/-- The multiple of `10 ^ exponent` in the interval that is nearest to the value. -/
def nearest? (tie : Tie) (r : Rounding) (exponent : Int) : Option Nat :=
  let numerator := r.value * Nat.pow 10 (-exponent).toNat
  let unit := r.denominator * Nat.pow 10 exponent.toNat
  let floor := numerator / unit
  let rest := numerator % unit * 2
  match r.contains floor exponent, r.contains (floor + 1) exponent with
  | true, true =>
    some (if rest < unit ∨ rest = unit ∧ tie = .toEven ∧ floor % 2 = 0 then floor else floor + 1)
  | true, false => some floor
  | false, true => some (floor + 1)
  | false, false => none

/-- The exponent of the first digit, plus one. -/
def order (r : Rounding) : Int :=
  match r.value / r.denominator with
  | 0 =>
    -(((List.range 400).find? fun t => r.denominator ≤ r.value * Nat.pow 10 (t + 1)).getD 0 : Nat)
  | n + 1 => ((Nat.toDigits 10 (n + 1)).length : Nat)

end Rounding

/-- The first grid of powers of ten that meets the interval gives the digits. -/
def Binary.shortest (tie : Tie) (b : Binary) : Decimal.Scientific :=
  let r := b.rounding
  let order := r.order
  ((List.range 17).findSome? fun (n : Nat) =>
    let exponent := order - (n + 1 : Nat)
    (r.nearest? tie exponent).map fun digits =>
      (Decimal.Scientific.mk digits exponent).dropZero).getD ⟨0, 0⟩

namespace Decimal

/-- Digits with a point where it falls, and no exponent. -/
def Scientific.positional (s : Scientific) : String :=
  let (whole, fraction) := s.parts
  String.ofList (whole ++ fractionText fraction)

/-- The text of a weight: shortest digits in positional notation, a tie going up, and a sign also
before zero. -/
def text (x : Float) : String :=
  if x.isNaN then "NaN"
  else
    let sign := if isNegative x then "-" else ""
    if x.isInf then sign ++ "inf"
    else if x == 0 then sign ++ "0"
    else sign ++ ((Binary.ofFloat x).shortest .up).positional

end Decimal

end WeightedAutomata
