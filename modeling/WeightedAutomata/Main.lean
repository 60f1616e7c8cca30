import WeightedAutomata.CommandLine.Program

/-!
The command line: the first argument names the program, `weight` or `best`.
-/
namespace WeightedAutomata.CommandLine

/-- The text of a file, or the reason why there is none. -/
def readDescription (path : String) : IO (Except String String) := do
  try
    let bytes ← IO.FS.readBinFile path
    match String.fromUTF8? bytes with
    | some text => return .ok text
    | none => return .error "stream did not contain valid UTF-8"
  catch
    | .noFileOrDirectory _ code _ => return .error s!"No such file or directory (os error {code})"
    | e => return .error (toString e)

def finish (outcome : Outcome) : IO UInt32 := do
  (← IO.getStdout).putStr outcome.stdout
  (← IO.getStderr).putStr outcome.stderr
  return outcome.exitCode.toUInt32

end WeightedAutomata.CommandLine

open WeightedAutomata.CommandLine in
def main (args : List String) : IO UInt32 := do
  let (program, args) ← match args with
    | "weight" :: rest => pure (Program.weigh, rest)
    | "best" :: rest => pure (Program.best, rest)
    | _ => throw (IO.userError "expected the program weight or best")
  match program.start (← IO.getEnv weightsVariable) args with
  | .error outcome => finish outcome
  | .ok request =>
    let file ← readDescription request.path
    let input ← match program with
      | .weigh => (← IO.getStdin).readBinToEnd
      | .best => pure .empty
    finish (program.answer request file input.toList)
