import WeightedAutomata.Description.Text

/-!
The kinds of weights that a description can be read over, by name.
-/
namespace WeightedAutomata

/-- Weights that the programs can read, compute with, rank and print. -/
class PrintableWeight (W : Type) extends
  Zero W, One W, Add W, Mul W, BEq W, Ord W, PartialInverse W, JsonWeight W, ToString W

instance : PrintableWeight BooleanWeight := {}
instance : PrintableWeight RealWeight := {}
instance : PrintableWeight TropicalWeight := {}
instance : PrintableWeight LogWeight := {}

inductive WeightKind where
  | boolean
  | real
  | tropical
  | log
  deriving DecidableEq, Repr

namespace WeightKind

def name : WeightKind → String
  | .boolean => "boolean"
  | .real => "real"
  | .tropical => "tropical"
  | .log => "log"

/-- Names are read without regard to the case of ASCII letters. -/
def ofName? (name : String) : Option WeightKind :=
  match name.map Char.toLower with
  | "boolean" | "bool" => some .boolean
  | "real" | "probability" => some .real
  | "tropical" => some .tropical
  | "log" => some .log
  | _ => none

def Weight : WeightKind → Type
  | .boolean => BooleanWeight
  | .real => RealWeight
  | .tropical => TropicalWeight
  | .log => LogWeight

instance : (kind : WeightKind) → PrintableWeight kind.Weight
  | .boolean => inferInstanceAs (PrintableWeight BooleanWeight)
  | .real => inferInstanceAs (PrintableWeight RealWeight)
  | .tropical => inferInstanceAs (PrintableWeight TropicalWeight)
  | .log => inferInstanceAs (PrintableWeight LogWeight)

end WeightKind

end WeightedAutomata
