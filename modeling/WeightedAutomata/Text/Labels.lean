import WeightedAutomata.Text.Blank

/-!
Lines as label sequences.
-/
namespace WeightedAutomata.Text

/-- What the labels of a line are. -/
inductive Labeling where
  | characters
  /-- Words between blanks. -/
  | tokens
  deriving DecidableEq, Repr

/-- Ends a word that may be empty. -/
def endWord (word : List Char) (words : List (List Char)) : List (List Char) :=
  if word.isEmpty then words else word :: words

/-- The word at the front of a text, empty before a blank, and the words after it. -/
def splitFront (cs : List Char) : List Char × List (List Char) :=
  cs.foldr (fun c (word, words) =>
    if isBlank c then ([], endWord word words) else (c :: word, words)) ([], [])

/-- The words of a text: the longest runs without blanks. -/
def words (cs : List Char) : List (List Char) :=
  let (word, words) := splitFront cs
  endWord word words

def tokenize (labeling : Labeling) (line : String) : List String :=
  match labeling with
  | .characters => line.toList.map String.singleton
  | .tokens => (words line.toList).map String.ofList

def detokenize (labeling : Labeling) (labels : List String) : String :=
  match labeling with
  | .characters => "".intercalate labels
  | .tokens => " ".intercalate labels

/-- A text as its characters, and back. -/
def characters (s : String) : List Char := s.toList

def ofCharacters (cs : List Char) : String := String.ofList cs

end WeightedAutomata.Text
