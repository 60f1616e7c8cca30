import WeightedAutomata.CommandLine.WeightKind

/-!
Arguments of the programs, and what can be wrong with a call.
-/
namespace WeightedAutomata.CommandLine

inductive CommandError where
  | missingValue (option : String)
  | unknownWeights (name : String)
  /-- The environment names weights that are not known. -/
  | unknownDefault (name : String)
  | invalidCount (text : String)
  | pathExpected
  | unreadableFile (path reason : String)
  | invalidDescription (path : String) (error : BuildError)
  | invalidAutomaton (error : BuildError)
  | invalidInput
  | outOfSteps
  deriving DecidableEq, Repr

/-- The environment variable that names the weights where no option does. -/
def weightsVariable : String := "WFSA_SEMIRING"

def unknownWeightsMessage (name : String) : String :=
  s!"unknown semiring '{name}' (expected boolean, real, tropical or log)"

def CommandError.message : CommandError → String
  | .missingValue option => s!"{option} requires a value"
  | .unknownWeights name => unknownWeightsMessage name
  | .unknownDefault name => s!"{weightsVariable}: {unknownWeightsMessage name}"
  | .invalidCount text => s!"invalid count '{text}'"
  | .pathExpected => "expected exactly one automaton description (see --help)"
  | .unreadableFile path reason => s!"failed to read {path}: {reason}"
  | .invalidDescription path error => s!"{path}: {error.message}"
  | .invalidAutomaton error => error.message
  | .invalidInput => "error reading stdin: stream did not contain valid UTF-8"
  | .outOfSteps => "the automaton has too many states"

/-- What follows `lead`, in a text that starts with it. -/
def after? (lead text : String) : Option String :=
  (lead.toList.isPrefixOf? text.toList).map String.ofList

/-- Takes an option out of the arguments: `--name=VALUE`, `--name VALUE` or the short name and
VALUE. The last occurrence counts. -/
def takeOption (long : String) (short : Option String) :
    List String → Except CommandError (Option String × List String)
  | [] => .ok (none, [])
  | arg :: rest =>
    match after? (long ++ "=") arg with
    | some value => do
      let (later, remaining) ← takeOption long short rest
      return (later <|> some value, remaining)
    | none =>
      if arg == long || short == some arg then
        match rest with
        | [] => .error (.missingValue arg)
        | value :: rest => do
          let (later, remaining) ← takeOption long short rest
          return (later <|> some value, remaining)
      else do
        let (value, remaining) ← takeOption long short rest
        return (value, arg :: remaining)

/-- Whether a flag is given, and the other arguments. -/
def takeFlag (flag : String) (args : List String) : Bool × List String :=
  (args.contains flag, args.filter (· != flag))

def wantsHelp (args : List String) : Bool := args.any fun arg => arg == "--help" || arg == "-h"

/-- The weights named by the option, else by the environment unless that is empty, else tropical
ones. -/
def weightKind (option environment : Option String) : Except CommandError WeightKind :=
  match option, environment with
  | some name, _ => (WeightKind.ofName? name).elim (.error (.unknownWeights name)) .ok
  | none, some name =>
    if name.isEmpty then .ok .tropical
    else (WeightKind.ofName? name).elim (.error (.unknownDefault name)) .ok
  | none, none => .ok .tropical

/-- An unsigned integer of 64 bits, after an optional plus sign. -/
def count? (text : String) : Option Nat :=
  let digits := match text.toList with
    | '+' :: rest => rest
    | cs => cs
  if digits.isEmpty || !digits.all Char.isDigit then none
  else
    let n := Decimal.valueOf digits
    if n < UInt64.size then some n else none

end WeightedAutomata.CommandLine
