import WeightedAutomata.CommandLine.Arguments
import WeightedAutomata.KBest.Paths
import WeightedAutomata.Text.Labels
import WeightedAutomata.Text.Lines

/-!
The two programs: one weighs the lines of its input, the other lists the best strings.
-/
namespace WeightedAutomata.CommandLine

open Text (Labeling)

/-- What a run of a program leaves behind. -/
structure Outcome where
  exitCode : Nat
  stdout : String
  stderr : String
  deriving DecidableEq, Repr

def Outcome.ofLines (lines : List String) : Outcome :=
  ⟨0, String.join (lines.map (· ++ "\n")), ""⟩

/-- The lines written before an error, and the error. -/
def Outcome.failed (lines : List String) (e : CommandError) : Outcome :=
  ⟨1, String.join (lines.map (· ++ "\n")), s!"error: {e.message}\n"⟩

inductive Program where
  | weigh
  | best
  deriving DecidableEq, Repr

def Program.help : Program → List String
  | .weigh =>
    ["wfsa-weight: Weigh strings from stdin against a described automaton.",
      "",
      "Usage: wfsa-weight [OPTIONS] AUTOMATON.json",
      "",
      "Reads strings from stdin (one per line). Prints:",
      "  string<TAB>weight",
      "",
      "Options:",
      "  -s, --semiring NAME   boolean, real, tropical or log",
      s!"                        (default: ${weightsVariable}, else tropical)",
      "  --tokens              Labels are whitespace-separated tokens",
      "  -h, --help            Print this help"]
  | .best =>
    ["wfsa-best: Print the best strings of a described automaton.",
      "",
      "Usage: wfsa-best [OPTIONS] AUTOMATON.json",
      "",
      "Prints one line per string, best first:",
      "  weight<TAB>string",
      "",
      "Options:",
      "  -k, --count N         Number of strings to print (default: 1)",
      "  -s, --semiring NAME   boolean, real, tropical or log",
      s!"                        (default: ${weightsVariable}, else tropical)",
      "  --tokens              Separate token labels with spaces",
      "  --paths               Print the best paths instead of distinct strings",
      "  -h, --help            Print this help"]

/-- What a call asks for. -/
structure Request where
  kind : WeightKind
  labeling : Labeling
  path : String
  /-- How many strings to list. -/
  count : Nat
  /-- Whether to list paths instead of different strings. -/
  paths : Bool
  deriving DecidableEq, Repr

def labelingOf (tokens : Bool) : Labeling := if tokens then .tokens else .characters

def Request.ofWeighArguments (environment : Option String) (args : List String) :
    Except CommandError Request := do
  let (name, args) ← takeOption "--semiring" (some "-s") args
  let (tokens, args) := takeFlag "--tokens" args
  let kind ← weightKind name environment
  let [path] := args | throw .pathExpected
  return ⟨kind, labelingOf tokens, path, 0, false⟩

def Request.ofBestArguments (environment : Option String) (args : List String) :
    Except CommandError Request := do
  let (name, args) ← takeOption "--semiring" (some "-s") args
  let (count, args) ← takeOption "--count" (some "-k") args
  let (tokens, args) := takeFlag "--tokens" args
  let (paths, args) := takeFlag "--paths" args
  let kind ← weightKind name environment
  let count ← match count with
    | none => pure 1
    | some text => (count? text).elim (throw (.invalidCount text)) pure
  let [path] := args | throw .pathExpected
  return ⟨kind, labelingOf tokens, path, count, paths⟩

def Program.request : Program → Option String → List String → Except CommandError Request
  | .weigh => Request.ofWeighArguments
  | .best => Request.ofBestArguments

/-- The steps that a traversal or a relaxation may take. -/
def budget : Nat := Nat.pow 10 18

section Answers

variable {W : Type} [PrintableWeight W]

def weighLine (E : Explicit String W) (labeling : Labeling) (line : String) : Option String := do
  let w ← E.automaton.stringWeight budget .default (Text.tokenize labeling line)
  return s!"{line}\t{w}"

/-- Answers line by line, up to a line that is not UTF-8. -/
def weighLines (E : Explicit String W) (labeling : Labeling) :
    (answers : List String) → List (List UInt8) → Outcome
  | answers, [] => .ofLines answers.reverse
  | answers, bytes :: rest =>
    match Text.lineText? bytes with
    | none => .failed answers.reverse .invalidInput
    | some line =>
      match weighLine E labeling line with
      | none => .failed answers.reverse .outOfSteps
      | some answer => weighLines E labeling (answer :: answers) rest

def bestLines (E : Explicit String W) (request : Request) : Option (List String) := do
  let best : List (W × List String) ←
    if request.paths then do
      let paths ← E.automaton.shortestPaths budget request.count .bestFirst
      pure (paths.map fun p => (p.weight, p.label))
    else do
      let (paths, _) ← (E.automaton.bestStrings budget request.count .bestFirst).run .empty
      pure (paths.map fun p => (p.weight, p.label))
  return best.map fun (w, labels) => s!"{w}\t{Text.detokenize request.labeling labels}"

/-- The automaton that a file describes, or what is wrong with it. -/
def load (W : Type) [PrintableWeight W] (path : String) (file : Except String String) :
    Except CommandError (Explicit String W) := do
  let text ← file.mapError (.unreadableFile path)
  let description ← (Description.read text).mapError (.invalidDescription path)
  (description.build (W := W)).mapError .invalidAutomaton

end Answers

/-- Answers a request, given its file or the reason why that cannot be read, and the input. -/
def Program.answer (program : Program) (request : Request) (file : Except String String)
    (input : List UInt8) : Outcome :=
  match load request.kind.Weight request.path file with
  | .error e => .failed [] e
  | .ok E =>
    match program with
    | .weigh => weighLines E request.labeling [] (Text.cutLines input)
    | .best => (bestLines E request).elim (.failed [] .outOfSteps) .ofLines

/-- Answers a call as far as its arguments alone decide. -/
def Program.start (program : Program) (environment : Option String) (args : List String) :
    Except Outcome Request :=
  if wantsHelp args then .error (.ofLines program.help)
  else (program.request environment args).mapError (.failed [])

end WeightedAutomata.CommandLine
