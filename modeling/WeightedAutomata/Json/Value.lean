import WeightedAutomata.Decimal.Digits

/-!
JSON values as they are written: numbers keep their digits, and a string is unreadable where an
escape names half of a surrogate pair.
-/
namespace WeightedAutomata.Json

/-- A number as it is written: its digits before and after the point, and a power of ten. -/
structure Numeral where
  negative : Bool
  whole : List Char
  /-- Empty where there is no point. -/
  fraction : List Char
  power : Option Int
  deriving DecidableEq, Repr

namespace Numeral

def ofNat (n : Nat) : Numeral := ⟨false, Nat.toDigits 10 n, [], none⟩

/-- Whether there is neither a point nor a power. -/
def isInteger (n : Numeral) : Bool := n.fraction.isEmpty && n.power.isNone

/-- All digits as one integer. -/
def digits (n : Numeral) : Nat := Decimal.valueOf (n.whole ++ n.fraction)

/-- The power of ten that `digits` is to be scaled by. -/
def exponent (n : Numeral) : Int := n.power.getD 0 - n.fraction.length

end Numeral

inductive Value where
  | null
  | bool (b : Bool)
  | number (n : Numeral)
  | string (text : Option String)
  | array (items : List Value)
  | object (members : List (Option String × Value))
  deriving Repr

namespace Value

/-- The fields of a record with these names: members of an object, each at most once and others
ignored, or items of an array, of which the last may be missing. -/
def fields? (names : List String) : Value → Option (List (Option Value))
  | .array items =>
    if items.length ≤ names.length then
      some (items.map some ++ List.replicate (names.length - items.length) none)
    else none
  | .object members =>
    let occurrences name := members.filter (·.1 == some name)
    if members.any (·.1.isNone) || names.any fun name => 1 < (occurrences name).length then none
    else some (names.map fun name => (occurrences name).head?.map (·.2))
  | _ => none

/-- An unsigned integer of 64 bits. -/
def index? : Value → Option Nat
  | .number n =>
    if n.isInteger && !n.negative && n.digits < UInt64.size then some n.digits else none
  | _ => none

def items? : Value → Option (List Value)
  | .array items => some items
  | _ => none

/-- A field that may be missing or null. -/
def optional? {α : Type} (read : Value → Option α) : Option Value → Option (Option α)
  | none | some .null => some none
  | some v => (read v).map some

def text? : Value → Option String
  | .string text => text
  | _ => none

end Value

end WeightedAutomata.Json
