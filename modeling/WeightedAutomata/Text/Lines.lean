/-!
Lines of UTF-8 input.
-/
namespace WeightedAutomata.Text

/-- Cuts behind every line feed. -/
def cutLines (bytes : List UInt8) : List (List UInt8) :=
  bytes.foldr (fun byte lines =>
    match lines with
    | line :: rest => if byte == 10 then [byte] :: lines else (byte :: line) :: rest
    | [] => [[byte]]) []

/-- Drops a line feed at the end, and a carriage return before it. -/
def dropFeed (line : List Char) : List Char :=
  match line.reverse with
  | '\n' :: '\r' :: rest => rest.reverse
  | '\n' :: rest => rest.reverse
  | _ => line

/-- The text of a line, where its bytes are UTF-8. -/
def lineText? (line : List UInt8) : Option String :=
  (String.fromUTF8? ⟨line.toArray⟩).map fun text => String.ofList (dropFeed text.toList)

end WeightedAutomata.Text
