import WeightedAutomata.Decimal.Scaled
import WeightedAutomata.Decimal.Shortest
import WeightedAutomata.Description.Basic
import WeightedAutomata.Json.Reader
import WeightedAutomata.Json.Writer
import WeightedAutomata.Weight.Numeric

/-!
Descriptions as JSON texts.
-/
namespace WeightedAutomata

open Json (Value)

/-- Weights that are written as JSON values. -/
class JsonWeight (W : Type) where
  read? : Value → Option W
  write : W → Value

/-- Numbers beyond the doubles are refused. -/
def Json.Value.double? : Value → Option Double
  | .number n =>
    (Decimal.read? n.whole n.fraction (n.power.getD 0)).map fun x =>
      .ofFloat (if n.negative then -x else x)
  | _ => none

/-- The shortest decimal, a tie going to the even digit. A number that is not finite has none and is
written as null. -/
def Json.Value.ofDouble (x : Double) : Value :=
  if x.isFinite then
    let shortest := if x == 0 then ⟨0, 0⟩ else (Binary.ofFloat x.value).shortest .toEven
    .number (.ofScientific (isNegative x.value) shortest)
  else .null

instance : JsonWeight BooleanWeight where
  read?
    | .bool b => some ⟨b⟩
    | _ => none
  write w := .bool w.accepted

instance : JsonWeight RealWeight := ⟨fun v => v.double?.map .mk, fun w => .ofDouble w.value⟩
instance : JsonWeight TropicalWeight := ⟨fun v => v.double?.map .mk, fun w => .ofDouble w.value⟩
instance : JsonWeight LogWeight := ⟨fun v => v.double?.map .mk, fun w => .ofDouble w.value⟩

variable {W : Type} [JsonWeight W]

/-- A list that may be left out. -/
def readList? {α : Type} (read : Value → Option α) : Option Value → Option (List α)
  | none => some []
  | some v => do (← v.items?).mapM read

namespace StateWeight

def read? (v : Value) : Option (StateWeight W) := do
  match ← v.fields? ["state", "weight"] with
  | [state, weight] =>
    return ⟨← (← state).index?, ← Value.optional? JsonWeight.read? weight⟩
  | _ => none

def write (s : StateWeight W) : Value :=
  .object ((some "state", .number (.ofNat s.state))
    :: s.weight.toList.map fun w => (some "weight", JsonWeight.write w))

end StateWeight

namespace Description

def readTransition? (v : Value) : Option (Edge String (Option W)) := do
  match ← v.fields? ["from", "to", "label", "weight"] with
  | [source, target, label, weight] =>
    return { source := ← (← source).index?
             target := ← (← target).index?
             label := ← Value.optional? Value.text? label
             weight := ← Value.optional? JsonWeight.read? weight }
  | _ => none

def writeTransition (e : Edge String (Option W)) : Value :=
  .object ([(some "from", .number (.ofNat e.source)),
      (some "to", .number (.ofNat e.target))]
    ++ (e.label.toList.map fun label => (some "label", .string (some label)))
    ++ e.weight.toList.map fun w => (some "weight", JsonWeight.write w))

def readValue? (v : Value) : Option (Description W) := do
  match ← v.fields? ["states", "initial", "final", "transitions"] with
  | [states, initial, final, transitions] =>
    return { states := ← (← states).index?
             initial := ← readList? StateWeight.read? initial
             final := ← readList? StateWeight.read? final
             transitions := ← readList? readTransition? transitions }
  | _ => none

def writeValue (d : Description W) : Value :=
  .object [(some "states", .number (.ofNat d.states)),
    (some "initial", .array (d.initial.map StateWeight.write)),
    (some "final", .array (d.final.map StateWeight.write)),
    (some "transitions", .array (d.transitions.map writeTransition))]

/-- The description that a text holds. -/
def read (text : String) : Except BuildError (Description W) :=
  match (Json.read? text).bind readValue? with
  | some d => .ok d
  | none => .error .unreadable

def write (d : Description W) : String := d.writeValue.render

end Description

end WeightedAutomata
