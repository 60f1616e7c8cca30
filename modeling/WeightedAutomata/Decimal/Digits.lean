/-!
Numbers written in decimal digits.
-/
namespace WeightedAutomata.Decimal

def digitValue (c : Char) : Nat := c.toNat - '0'.toNat

def valueOf (digits : List Char) : Nat := digits.foldl (fun n c => 10 * n + digitValue c) 0

/-- `digits * 10 ^ exponent`. -/
structure Scientific where
  digits : Nat
  exponent : Int
  deriving DecidableEq, Repr

namespace Scientific

def dropZero (s : Scientific) : Scientific :=
  if s.digits % 10 = 0 then ⟨s.digits / 10, s.exponent + 1⟩ else s

/-- The digits before and after the point, written without an exponent. -/
def parts (s : Scientific) : List Char × List Char :=
  let digits := Nat.toDigits 10 s.digits
  let places := (-s.exponent).toNat
  let padded := List.replicate (places + 1 - digits.length) '0' ++ digits
  let cut := padded.length - places
  (padded.take cut ++ List.replicate s.exponent.toNat '0', padded.drop cut)

/-- The place of the point counted from the first digit. -/
def pointPlace (s : Scientific) : Int := (Nat.toDigits 10 s.digits).length + s.exponent

end Scientific

/-- A point with digits behind it; nothing where there are none. -/
def fractionText (digits : List Char) : List Char :=
  if digits.isEmpty then [] else '.' :: digits

end WeightedAutomata.Decimal
