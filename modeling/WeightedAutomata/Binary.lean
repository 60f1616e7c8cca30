/-!
Magnitudes of doubles as exact binary numbers, and the rounding of such numbers to doubles.
-/
namespace WeightedAutomata

/-- The number `mantissa * 2 ^ exponent`. -/
structure Binary where
  mantissa : Nat
  exponent : Int
  deriving DecidableEq, Repr

namespace Binary

/-- The first bit of a normal double's mantissa, above the 52 that are stored. -/
def hiddenBit : Nat := Nat.pow 2 52

/-- The magnitude of a finite double. -/
def ofFloat (x : Float) : Binary :=
  let bits := x.toBits.toNat
  let fraction := bits % hiddenBit
  match bits / hiddenBit % 2048 with
  | 0 => ⟨fraction, -1074⟩
  | e + 1 => ⟨fraction + hiddenBit, (e : Int) - 1074⟩

def mul (a b : Binary) : Binary := ⟨a.mantissa * b.mantissa, a.exponent + b.exponent⟩

/-- The sum, over the lesser of the two exponents. -/
def add (a b : Binary) : Binary :=
  if a.exponent ≤ b.exponent then
    ⟨a.mantissa + b.mantissa * Nat.pow 2 (b.exponent - a.exponent).toNat, a.exponent⟩
  else ⟨a.mantissa * Nat.pow 2 (a.exponent - b.exponent).toNat + b.mantissa, b.exponent⟩

/-- Rounds to 53 bits, a tie going to the even mantissa. That is the nearest double where the result
is normal. -/
def toFloat (b : Binary) : Float :=
  let excess := b.mantissa.log2 - 52
  let unit := Nat.pow 2 excess
  let kept := b.mantissa / unit
  let rest := b.mantissa % unit * 2
  let rounded := if unit < rest ∨ unit = rest ∧ kept % 2 = 1 then kept + 1 else kept
  (Float.ofNat rounded).scaleB (b.exponent + excess)

end Binary

/-- Whether the sign bit is set, also of zero. -/
def isNegative (x : Float) : Bool := x.toBits.toNat.testBit 63

/-- `x * y + z` for magnitudes, rounded once. -/
def fusedMultiplyAdd (x y z : Float) : Float :=
  (((Binary.ofFloat x).mul (.ofFloat y)).add (.ofFloat z)).toFloat

end WeightedAutomata
