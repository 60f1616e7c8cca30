import WeightedAutomata.Json.Value

/-!
Reading JSON texts.
-/
namespace WeightedAutomata.Json

def isBlank (c : Char) : Bool := c == ' ' || c == '\t' || c == '\n' || c == '\r'

def hexDigit? (c : Char) : Option Nat :=
  if '0' ≤ c ∧ c ≤ '9' then some (c.toNat - '0'.toNat)
  else if 'a' ≤ c ∧ c ≤ 'f' then some (c.toNat - 'a'.toNat + 10)
  else if 'A' ≤ c ∧ c ≤ 'F' then some (c.toNat - 'A'.toNat + 10)
  else none

/-- The number written by four hexadecimal digits. -/
def hexCode? (a b c d : Char) : Option Nat := do
  return ((← hexDigit? a) * 16 + (← hexDigit? b)) * 256 + (← hexDigit? c) * 16 + (← hexDigit? d)

def escape? : Char → Option Char
  | '"' => some '"'
  | '\\' => some '\\'
  | '/' => some '/'
  | 'b' => some '\x08'
  | 'f' => some '\x0c'
  | 'n' => some '\n'
  | 'r' => some '\r'
  | 't' => some '\t'
  | _ => none

def isHighSurrogate (code : Nat) : Bool := 0xD800 ≤ code && code < 0xDC00

def isLowSurrogate (code : Nat) : Bool := 0xDC00 ≤ code && code < 0xE000

/-- A piece of a string: its character, if it has one, and what follows it. -/
abbrev Piece := Option Char × List Char

/-- The character of an escape `\uXXXX`, which may take a second escape to complete. -/
def unicodePiece (code : Nat) (rest : List Char) : Piece :=
  if isHighSurrogate code then
    match rest with
    | '\\' :: 'u' :: a :: b :: c :: d :: after =>
      match hexCode? a b c d with
      | some low =>
        if isLowSurrogate low then
          (some (Char.ofNat (0x10000 + (code - 0xD800) * 0x400 + (low - 0xDC00))), after)
        else (none, rest)
      | none => (none, rest)
    | _ => (none, rest)
  else if isLowSurrogate code then (none, rest)
  else (some (Char.ofNat code), rest)

/-- The first piece of a string's inside; control characters have to be escaped. -/
def piece? : List Char → Option Piece
  | '\\' :: 'u' :: a :: b :: c :: d :: rest => (hexCode? a b c d).map (unicodePiece · rest)
  | '\\' :: c :: rest => (escape? c).map fun c => (some c, rest)
  | c :: rest => if c == '\\' || c.toNat < 0x20 then none else some (some c, rest)
  | [] => none

/-- Reads up to the closing quote. The text is `none` if a piece has no character. -/
def readString : (fuel : Nat) → (read : Option (List Char)) → List Char →
    Option (Option String × List Char)
  | _, read, '"' :: rest => some (read.map fun cs => String.ofList cs.reverse, rest)
  | 0, _, _ => none
  | fuel + 1, read, cs => do
    let (c, rest) ← piece? cs
    readString fuel (do return (← c) :: (← read)) rest

/-- The digits at the front, at least one. -/
def digits? (cs : List Char) : Option (List Char × List Char) :=
  match cs.span Char.isDigit with
  | ([], _) => none
  | found => some found

/-- The digits after a point, if there is one. -/
def fraction? : List Char → Option (Option (List Char) × List Char)
  | '.' :: rest => (digits? rest).map fun (ds, rest) => (some ds, rest)
  | rest => some (none, rest)

def sign : List Char → Bool × List Char
  | '-' :: rest => (true, rest)
  | '+' :: rest => (false, rest)
  | rest => (false, rest)

def power? : List Char → Option (Option Int × List Char)
  | [] => some (none, [])
  | c :: rest =>
    if c == 'e' || c == 'E' then do
      let (negative, rest) := sign rest
      let (ds, rest) ← digits? rest
      return (some (if negative then -(Decimal.valueOf ds : Int) else Decimal.valueOf ds), rest)
    else some (none, c :: rest)

/-- The whole part has no zero in front of other digits. -/
def readNumeral (cs : List Char) : Option (Numeral × List Char) := do
  let (negative, cs) := match cs with
    | '-' :: rest => (true, rest)
    | _ => (false, cs)
  let (whole, cs) ← digits? cs
  if whole.head? == some '0' && whole.length != 1 then none
  let (fraction, cs) ← fraction? cs
  let (power, cs) ← power? cs
  return (⟨negative, whole, fraction.getD [], power⟩, cs)

mutual

/-- Reads one value; `fuel` bounds the number of values in it. -/
def readValue : (fuel : Nat) → List Char → Option (Value × List Char)
  | 0, _ => none
  | fuel + 1, cs =>
    match cs.dropWhile isBlank with
    | 'n' :: 'u' :: 'l' :: 'l' :: rest => some (.null, rest)
    | 't' :: 'r' :: 'u' :: 'e' :: rest => some (.bool true, rest)
    | 'f' :: 'a' :: 'l' :: 's' :: 'e' :: rest => some (.bool false, rest)
    | '"' :: rest => (readString rest.length (some []) rest).map fun (s, rest) => (.string s, rest)
    | '[' :: rest =>
      match rest.dropWhile isBlank with
      | ']' :: rest => some (.array [], rest)
      | rest => readItems fuel [] rest
    | '{' :: rest =>
      match rest.dropWhile isBlank with
      | '}' :: rest => some (.object [], rest)
      | rest => readMembers fuel [] rest
    | rest => (readNumeral rest).map fun (n, rest) => (.number n, rest)

/-- Reads the items of an array up to its end, after those in `done`. -/
def readItems : (fuel : Nat) → (done : List Value) → List Char → Option (Value × List Char)
  | 0, _, _ => none
  | fuel + 1, done, cs => do
    let (v, rest) ← readValue fuel cs
    match rest.dropWhile isBlank with
    | ',' :: rest => readItems fuel (v :: done) rest
    | ']' :: rest => some (.array (v :: done).reverse, rest)
    | _ => none

/-- Reads the members of an object up to its end, after those in `done`. -/
def readMembers : (fuel : Nat) → (done : List (Option String × Value)) → List Char →
    Option (Value × List Char)
  | 0, _, _ => none
  | fuel + 1, done, cs =>
    match cs.dropWhile isBlank with
    | '"' :: rest => do
      let (key, rest) ← readString rest.length (some []) rest
      match rest.dropWhile isBlank with
      | ':' :: rest => do
        let (v, rest) ← readValue fuel rest
        match rest.dropWhile isBlank with
        | ',' :: rest => readMembers fuel ((key, v) :: done) rest
        | '}' :: rest => some (.object ((key, v) :: done).reverse, rest)
        | _ => none
      | _ => none
    | _ => none

end

/-- Reads a whole text, which holds one value and blanks. -/
def read? (text : String) : Option Value := do
  let cs := text.toList
  let (v, rest) ← readValue (cs.length + 1) cs
  if rest.all isBlank then some v else none

end WeightedAutomata.Json
