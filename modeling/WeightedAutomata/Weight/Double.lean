import WeightedAutomata.Decimal.Shortest

/-!
Doubles by their bits. A NaN keeps its sign and its payload, and the total order compares both.
-/
namespace WeightedAutomata

/-- A double in the binary64 layout: a sign, an exponent and a fraction. -/
structure Double where
  bits : UInt64
  deriving Repr

namespace Double

def ofFloat (x : Float) : Double := ⟨x.toBits⟩

def value (x : Double) : Float := .ofBits x.bits

def infinity : Double := ofFloat (1 / 0)

/-- The answer of an operation that has none. -/
def indefinite : Double := ⟨0xfff8000000000000⟩

/-- Numerical equality: zeros are equal whatever their sign, and NaN equals nothing. -/
instance : BEq Double := ⟨fun x y => x.value == y.value⟩

def isNaN (x : Double) : Bool := x.value.isNaN
def isFinite (x : Double) : Bool := x.value.isFinite
def isInfinity (x : Double) : Bool := x == infinity

/-- A NaN as an operation hands it on: the highest bit of its fraction is set. -/
def quiet (x : Double) : Double := ⟨x.bits ||| 0x0008000000000000⟩

/-- The answer of an operation on two doubles: the first NaN among them, or else the result. -/
def combine (op : Float → Float → Float) (x y : Double) : Double :=
  if x.isNaN then x.quiet
  else if y.isNaN then y.quiet
  else
    let result := op x.value y.value
    if result.isNaN then indefinite else ofFloat result

/-- A function with a result for every number; NaN is handed on. -/
def map (f : Float → Float) (x : Double) : Double :=
  if x.isNaN then x.quiet else ofFloat (f x.value)

instance : Add Double := ⟨combine (· + ·)⟩
instance : Sub Double := ⟨combine (· - ·)⟩
instance : Mul Double := ⟨combine (· * ·)⟩
instance : Div Double := ⟨combine (· / ·)⟩

/-- Negation turns the sign over, also that of zero and NaN. -/
instance : Neg Double := ⟨fun x => ⟨x.bits ^^^ 0x8000000000000000⟩⟩

instance : Zero Double := ⟨ofFloat 0⟩
instance : One Double := ⟨ofFloat 1⟩

/-- The place in the total order: negative before positive, zeros told apart, and NaN beyond the
infinity of its sign, the further the greater its fraction. -/
def rank (x : Double) : Int :=
  let magnitude := x.bits.toNat % Nat.pow 2 63
  if x.bits.toNat.testBit 63 then Int.negSucc magnitude else magnitude

instance : Ord Double := ⟨fun x y => compare x.rank y.rank⟩
instance : ToString Double := ⟨fun x => Decimal.text x.value⟩

end Double

end WeightedAutomata
